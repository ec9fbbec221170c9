import Odyssey.Network.Cookies.CookieScan

/-!
# Names and values

What the parser extracts from a line `W N W = W V W`, possibly followed by `;` and attributes. The
length of the name is counted from the beginning of the line, so that blanks in front of the name
make it too long. A string that is read as one cookie loses its last character.
-/
namespace Odyssey.Network.Cookies

open WTF

/-- A name and a value between blanks, and the attributes. -/
structure CookieString where
  beforeName : Text
  name : Text
  afterName : Text
  beforeValue : Text
  value : Text
  afterValue : Text
  attributes : Text
  beforeName_blank : ∀ c ∈ beforeName, isLightweightSpace c = true
  afterName_blank : ∀ c ∈ afterName, isLightweightSpace c = true
  beforeValue_blank : ∀ c ∈ beforeValue, isLightweightSpace c = true
  afterValue_blank : ∀ c ∈ afterValue, isLightweightSpace c = true
  name_ne_nil : name ≠ []
  name_plain : ∀ c ∈ name, c ≠ 61 ∧ c ≠ 59 ∧ c ≠ 34
  name_trimmed : Trimmed name
  value_plain : ∀ c ∈ value, c ≠ 59 ∧ c ≠ 34
  value_trimmed : Trimmed value
  attributes_start : ∀ c ∈ attributes.head?, c = 59

/-- A cookie on one line. -/
structure CookieLine extends CookieString where
  one_line : ∀ c ∈ name ++ value ++ attributes, isCookieHeaderSeparator c = false

namespace CookieString

variable (line : CookieString)

/-- What stands before the `=`. -/
def nameChunk : Text := line.beforeName ++ (line.name ++ line.afterName)

/-- What stands between the `=` and the attributes. -/
def valueChunk : Text := line.beforeValue ++ (line.value ++ line.afterValue)

def text : Text := line.nameChunk ++ 61 :: (line.valueChunk ++ line.attributes)

theorem blank_ne {c : UInt16} (blank : isLightweightSpace c = true) :
    c ≠ 61 ∧ c ≠ 59 ∧ c ≠ 34 ∧ isCookieHeaderSeparator c = false := by
  simp only [isLightweightSpace, Bool.or_eq_true, beq_iff_eq] at blank
  rcases blank with rfl | rfl <;> decide

theorem nameChunk_plain : ∀ c ∈ line.nameChunk, c ≠ 61 ∧ c ≠ 59 ∧ c ≠ 34 := by
  intro c mem
  simp only [nameChunk, List.mem_append] at mem
  rcases mem with mem | mem | mem
  · have := blank_ne (line.beforeName_blank c mem)
    exact ⟨this.1, this.2.1, this.2.2.1⟩
  · exact line.name_plain c mem
  · have := blank_ne (line.afterName_blank c mem)
    exact ⟨this.1, this.2.1, this.2.2.1⟩

theorem valueChunk_plain : ∀ c ∈ line.valueChunk, c ≠ 59 ∧ c ≠ 34 := by
  intro c mem
  simp only [valueChunk, List.mem_append] at mem
  rcases mem with mem | mem | mem
  · have := blank_ne (line.beforeValue_blank c mem)
    exact ⟨this.2.1, this.2.2.1⟩
  · exact line.value_plain c mem
  · have := blank_ne (line.afterValue_blank c mem)
    exact ⟨this.2.1, this.2.2.1⟩

theorem name_length_pos : 0 < line.name.length := List.length_pos_of_ne_nil line.name_ne_nil

theorem length_nameChunk :
    line.nameChunk.length = line.beforeName.length + line.name.length + line.afterName.length := by
  simp only [nameChunk, List.length_append]
  omega

theorem length_text :
    line.text.length =
      line.nameChunk.length + 1 + line.valueChunk.length + line.attributes.length := by
  simp only [text, List.length_append, List.length_cons]
  omega

/-- The position of the attributes of a line that begins at `start`. -/
def pairEnd (start : Nat) : Nat := start + line.nameChunk.length + 1 + line.valueChunk.length

end CookieString

theorem CookieLine.text_one_line (line : CookieLine) :
    ∀ c ∈ line.text, isCookieHeaderSeparator c = false := by
  intro c mem
  simp only [CookieString.text, CookieString.nameChunk, CookieString.valueChunk, List.mem_append,
    List.mem_cons] at mem
  rcases mem with (mem | mem | mem) | rfl | (mem | mem | mem) | mem
  · exact (CookieString.blank_ne (line.beforeName_blank c mem)).2.2.2
  · exact line.one_line c (by simp [mem])
  · exact (CookieString.blank_ne (line.afterName_blank c mem)).2.2.2
  · decide
  · exact (CookieString.blank_ne (line.beforeValue_blank c mem)).2.2.2
  · exact line.one_line c (by simp [mem])
  · exact (CookieString.blank_ne (line.afterValue_blank c mem)).2.2.2
  · exact line.one_line c (by simp [mem])

namespace CookieParser

variable {p : Platform} {parser : CookieParser} {s : Text} {time : ℚ}

/-- The attribute, size and policy checks of a cookie whose name and value have been read. -/
def finish (p : Platform) (parser : CookieParser) (s : Text) (stop : Nat) (time : ℚ) (pairEnd : Nat)
    (c : ParsedCookie) : Option ParsedCookie :=
  (parser.parseAttributes p s stop time (stop - pairEnd) c pairEnd).bind (parser.complete p)

/-- A cookie of which only the name and the value are known. -/
def pairCookie (parser : CookieParser) (time : ℚ) (name value : Text) : ParsedCookie :=
  { ParsedCookie.init time with protocol := parser.defaultCookieURL.protocol, name, value }

section FirstPair

variable {line : CookieString} {rest : Text} {i stop : Nat}

/-- The loop stops at the attributes, or at the end `stop` after `w` has been read of the value. -/
theorem scanFirstPair_line {w : Text} (at' : s.drop i = line.nameChunk ++ 61 :: (w ++ rest))
    (plain : ∀ c ∈ w, c ≠ 59 ∧ c ≠ 34) (le : i + line.nameChunk.length + 1 + w.length ≤ stop)
    (stops : i + line.nameChunk.length + 1 + w.length = stop ∨ rest.head? = some 59) :
    scanFirstPair s i stop (stop - i) ⟨i, i, false⟩ =
      ⟨i + line.nameChunk.length, i + line.nameChunk.length + 1 + w.length, true⟩ := by
  have positive : 0 < line.nameChunk.length := by
    have := line.name_length_pos
    rw [line.length_nameChunk]
    omega
  have equal := drop_add_of_drop at'
  have value := drop_succ_of_drop equal
  have count : stop - i = line.nameChunk.length + (w.length +
      (stop - (i + line.nameChunk.length + 1 + w.length)) + 1) := by omega
  rw [count, scanFirstPair_append at' (fun c mem => ?_) (by omega),
    scanFirstPair_equal (charAt_of_drop equal) (by omega) rfl,
    scanFirstPair_append value (fun c mem => ?_) (by omega)]
  · refine scanFirstPair_stop (stops.imp id fun first => ?_) _
    cases rest with
    | nil => cases first
    | cons c rest =>
      rw [List.head?_cons, Option.some.injEq] at first
      subst first
      exact charAt_of_drop (drop_add_of_drop value)
  · exact ⟨(plain c mem).1, (plain c mem).2, fun _ => by omega⟩
  · have := line.nameChunk_plain c mem
    exact ⟨this.2.1, this.2.2, fun equal => absurd equal this.1⟩

/-- The name has the right length only without blanks in front of it. -/
theorem parseOneCookie_line {w v w' : Text}
    (at' : s.drop i = line.nameChunk ++ 61 :: ((w ++ (v ++ w')) ++ rest))
    (plain : ∀ c ∈ w ++ (v ++ w'), c ≠ 59 ∧ c ≠ 34) (trimmed : Trimmed v)
    (blank : ∀ c ∈ w, isLightweightSpace c = true)
    (blank' : ∀ c ∈ w', isLightweightSpace c = true)
    (le : i + line.nameChunk.length + 1 + (w ++ (v ++ w')).length ≤ stop)
    (stops : i + line.nameChunk.length + 1 + (w ++ (v ++ w')).length = stop ∨
      rest.head? = some 59) :
    parser.parseOneCookie p s i stop time =
      parser.finish p s stop time
        (i + line.nameChunk.length + 1 + (w ++ (v ++ w')).length)
        (parser.pairCookie time
          (s.substring (i + line.beforeName.length)
            (line.beforeName.length + line.name.length)) v) := by
  have positive := line.name_length_pos
  have nameChunk := line.length_nameChunk
  have name : s.drop (i + line.beforeName.length) =
      line.name ++ (line.afterName ++ 61 :: ((w ++ (v ++ w')) ++ rest)) := by
    refine drop_add_of_drop (w := line.beforeName) ?_
    rw [at', CookieString.nameChunk, List.append_assoc, List.append_assoc]
  have nameEnd : trimName s (i + line.nameChunk.length - 1) =
      i + line.beforeName.length + line.name.length - 1 := by
    have after := drop_add_of_drop name
    rw [show i + line.nameChunk.length - 1 =
        i + line.beforeName.length + line.name.length - 1 + line.afterName.length by omega,
      trimName_append (by rw [Nat.sub_add_cancel (by omega)]; exact after) line.afterName_blank]
    exact trimName_stop (line.name_trimmed.charAt_last line.name_ne_nil name)
  have nameStart : skipSpaces s i (i + line.beforeName.length + line.name.length - 1) =
      i + line.beforeName.length := by
    have here : s.drop i = line.beforeName ++
        (line.name ++ line.afterName ++ 61 :: ((w ++ (v ++ w')) ++ rest)) := by
      rw [at', CookieString.nameChunk, List.append_assoc]
    exact skipSpaces_append here line.beforeName_blank (by omega)
      (.inr (line.name_trimmed.charAt_first line.name_ne_nil name))
  have value := @substring_trimmed s w v w' rest (i + line.nameChunk.length + 1)
    (by rw [drop_succ_of_drop (drop_add_of_drop at'), List.append_assoc, List.append_assoc])
    blank blank' trimmed (i + line.nameChunk.length + 1 + (w ++ (v ++ w')).length) _
    (by simp only [List.length_append]; omega) rfl
  rw [parseOneCookie, scanFirstPair_line at' plain le stops]
  have hasName : i + line.nameChunk.length ≠ i := by omega
  dsimp only
  rw [decide_eq_true hasName, if_pos rfl, if_pos rfl, nameEnd, nameStart, value,
    if_neg (by omega), show i + line.beforeName.length + line.name.length - 1 + 1 - i =
      line.beforeName.length + line.name.length by omega]
  rfl

end FirstPair

/-! ## The last character -/

section Last

variable {last : Nat} {c : ParsedCookie}

theorem parseAttribute_of_symbol {start length : Nat} {value : Text}
    (symbol : isASCIISymbol (s.charAt start) = true) :
    parser.parseAttribute p c s start length value time = some c := by
  have ne {d : UInt16} (letter : isASCIISymbol d = false) : s.charAt start ≠ d := by
    rintro rfl
    rw [letter] at symbol
    cases symbol
  unfold parseAttribute
  dsimp only
  simp only [ne (d := 80) (by decide), ne (d := 112) (by decide), ne (d := 68) (by decide),
    ne (d := 100) (by decide), ne (d := 69) (by decide), ne (d := 101) (by decide),
    ne (d := 77) (by decide), ne (d := 109) (by decide), ne (d := 86) (by decide),
    ne (d := 118) (by decide), ne (d := 83) (by decide), ne (d := 115) (by decide),
    ne (d := 72) (by decide), ne (d := 104) (by decide), or_self, if_false]

theorem isASCIISymbol_of_blank {c : UInt16} (blank : isLightweightSpace c = true) :
    isASCIISymbol c = true := by
  simp only [isLightweightSpace, Bool.or_eq_true, beq_iff_eq] at blank
  rcases blank with rfl | rfl <;> decide

/-- A name does not reach over a blank. -/
theorem named_succ (laws : p.IgnoresCase) {name : Text} {start n : Nat}
    (blank : isLightweightSpace (s.charAt (start + n)) = true)
    (plain : ∀ c ∈ name, isLightweightSpace c = false) :
    (decide (name.length ≤ n + 1) && matchName p s name start) =
      (decide (name.length ≤ n) && matchName p s name start) := by
  by_cases eq : name.length = n + 1
  · suffices matchName p s name start = false by rw [this, Bool.and_false, Bool.and_false]
    rw [Bool.eq_false_iff]
    intro found
    simp only [matchName, Text.startsWithIgnoringCase, Bool.and_eq_true, decide_eq_true_eq] at found
    obtain ⟨le, equal⟩ := found
    have lt : n < (s.drop start).length := by omega
    have mem : s.charAt (start + n) ∈ (s.drop start).take name.length := by
      have get : (s.drop start)[n]? = some (s.charAt (start + n)) := by
        rw [List.getElem?_drop, Text.charAt, List.getD_eq_getElem?_getD]
        rw [List.length_drop] at lt
        rw [List.getElem?_eq_getElem (by omega), Option.getD_some]
      refine List.mem_of_getElem? (i := n) ?_
      rw [List.getElem?_take_of_lt (by omega), get]
    have count := laws.count _ _ equal _ (isASCIISymbol_of_blank blank)
    have notMem : s.charAt (start + n) ∉ name := fun mem => by
      rw [plain _ mem] at blank
      cases blank
    rw [List.count_eq_zero.mpr notMem] at count
    exact List.count_eq_zero.mp count mem
  · congr 1
    rw [decide_eq_decide]
    omega

theorem parseAttribute_succ (laws : p.IgnoresCase) {value : Text} {start n : Nat}
    (blank : isLightweightSpace (s.charAt (start + n)) = true) :
    parser.parseAttribute p c s start (n + 1) value time =
      parser.parseAttribute p c s start n value time := by
  unfold parseAttribute
  dsimp only
  have named (name : String) (plain : ∀ c ∈ text name, isLightweightSpace c = false) :=
    named_succ laws blank plain
  simp only [named "Path" (forall_mem_of_all rfl), named "Domain" (forall_mem_of_all rfl),
    named "Expires" (forall_mem_of_all rfl), named "Max-age" (forall_mem_of_all rfl),
    named "Version" (forall_mem_of_all rfl), named "Secure" (forall_mem_of_all rfl),
    named "HttpOnly" (forall_mem_of_all rfl)]

theorem skipSpaces_succ {i : Nat} (le : i ≤ last) :
    skipSpaces s i (last + 1) =
      if skipSpaces s i last = last ∧ isLightweightSpace (s.charAt last) = true then last + 1
      else skipSpaces s i last := by
  rw [skipSpaces, skipSpaces, show last + 1 - i = last - i + 1 by omega, skip_succ,
    show i + (last - i) = last by omega]

theorem skipSpaces_le {i : Nat} (le : i ≤ last) :
    i ≤ skipSpaces s i last ∧ skipSpaces s i last ≤ last := by
  have := le_skip (p := isLightweightSpace) (s := s) (i := i) (last - i)
  rw [skipSpaces]
  omega

/-- A blank at the end of an attribute. -/
theorem parsePair_succ (laws : p.IgnoresCase) {tokenStart tokenEnd : Nat}
    (blank : isLightweightSpace (s.charAt last) = true) (lt : tokenStart < last)
    (token : tokenEnd = tokenStart ∨ tokenEnd < last) :
    parser.parsePair p c s tokenStart tokenEnd (last + 1) time =
      parser.parsePair p c s tokenStart tokenEnd last time := by
  unfold parsePair
  split_ifs with hasValue
  · have le : tokenEnd + 1 ≤ last := by
      rcases token with eq | lt
      · exact absurd eq.symm hasValue
      · exact lt
    congr 1
    rw [skipSpaces_succ le]
    split_ifs with all
    · rw [all.1, trimSpaces_stop (.inl rfl), trimSpaces_stop (.inl rfl)]
      simp [Text.substring]
    · have upper := (skipSpaces_le (s := s) le).2
      rw [trimSpaces, if_pos ⟨by omega, blank⟩]
  · have eq : last + 1 - tokenStart = last - tokenStart + 1 := by omega
    rw [eq]
    exact parseAttribute_succ laws (by rw [Nat.add_sub_cancel' lt.le]; exact blank)

theorem parsePair_of_symbol {tokenStart tokenEnd pairEnd : Nat}
    (symbol : isASCIISymbol (s.charAt tokenStart) = true) :
    parser.parsePair p c s tokenStart tokenEnd pairEnd time = some c := by
  unfold parsePair
  split_ifs <;> exact parseAttribute_of_symbol symbol

theorem parseAttributes_stop {stop pairEnd : Nat} (le : stop ≤ pairEnd) (count : Nat)
    (c : ParsedCookie) : parser.parseAttributes p s stop time count c pairEnd = some c := by
  cases count with
  | zero => rfl
  | succ count => rw [parseAttributes, if_neg (by omega)]

/-- A blank or `;` at the end of the line has no effect on the attributes. -/
theorem parseAttributes_pred (laws : p.IgnoresCase) (length : s.length = last + 1)
    (ends : isLightweightSpace (s.charAt last) = true ∨ s.charAt last = 59) (count : Nat) :
    ∀ count' pairEnd c, pairEnd ≤ last → last + 1 - pairEnd ≤ count → last - pairEnd ≤ count' →
      parser.parseAttributes p s (last + 1) time count c pairEnd =
        parser.parseAttributes p s last time count' c pairEnd := by
  have beyond : isASCIISymbol (s.charAt (last + 1)) = true := by
    rw [← length, charAt_of_drop_eq_nil List.drop_length]
    decide
  induction count with
  | zero => exact fun count' pairEnd c le fuel => by omega
  | succ count ih =>
    intro count' pairEnd c le fuel fuel'
    rcases Nat.eq_or_lt_of_le le with rfl | lt
    · -- only the end of the line is left
      have none : skipSpaces s (pairEnd + 1) (pairEnd + 1) = pairEnd + 1 := by
        rw [skipSpaces, Nat.sub_self, skip]
      rw [parseAttributes_stop le_rfl, parseAttributes_succ (by omega) none rfl,
        parsePair_of_symbol beyond, Option.bind_some, Nat.sub_self, scanPair]
      exact parseAttributes_stop le_rfl _ _
    obtain ⟨count', rfl⟩ : ∃ n, count' = n + 1 := ⟨count' - 1, by omega⟩
    have bounds := @skipSpaces_le s last (pairEnd + 1) (by omega)
    generalize start_eq : skipSpaces s (pairEnd + 1) last = tokenStart at bounds
    by_cases all : tokenStart = last ∧ isLightweightSpace (s.charAt last) = true
    · -- only blanks are left
      have start_eq' : skipSpaces s (pairEnd + 1) (last + 1) = last + 1 := by
        rw [skipSpaces_succ (by omega), start_eq, if_pos all]
      obtain ⟨rfl, blank⟩ := all
      rw [parseAttributes_succ (by omega) start_eq' rfl,
        parseAttributes_succ (by omega) start_eq rfl,
        parsePair_of_symbol beyond, parsePair_of_symbol (isASCIISymbol_of_blank blank),
        Option.bind_some, Option.bind_some, Nat.sub_self, Nat.sub_self, scanPair, scanPair,
        parseAttributes_stop le_rfl, parseAttributes_stop le_rfl]
    have start_eq' : skipSpaces s (pairEnd + 1) (last + 1) = tokenStart := by
      rw [skipSpaces_succ (by omega), start_eq, if_neg all]
    obtain ⟨upper, lower, -, token⟩ := @scanPair_spec s tokenStart tokenStart
      tokenStart (last - tokenStart)
    have next := @scanPair_succ s tokenStart tokenStart tokenStart (last - tokenStart)
    rw [Nat.add_sub_cancel' bounds.2] at next upper
    rw [show last - tokenStart + 1 = last + 1 - tokenStart by omega] at next
    rw [parseAttributes_succ (by omega) start_eq' next,
      parseAttributes_succ (by omega) start_eq rfl]
    generalize scanPair s tokenStart (last - tokenStart) (tokenStart, tokenStart) = pair at *
    split_ifs with more equal
    · exfalso
      rcases ends with blank | semicolon
      · rw [equal.2] at blank
        cases blank
      · exact more.2 semicolon
    · -- the attribute ends with a blank
      have blank := ends.resolve_right more.2
      have lt' : tokenStart < last := by
        rcases Nat.eq_or_lt_of_le bounds.2 with eq | lt'
        · exact absurd ⟨eq, blank⟩ all
        · exact lt'
      rw [parsePair_succ laws blank lt' (token.imp_right fun h => by omega), more.1]
      simp only [parseAttributes_stop le_rfl]
    · congr 1
      funext c
      exact ih _ _ _ (by omega) (by omega) (by omega)

/-- Without attributes, the blank at the end follows the value, or precedes an empty one. -/
theorem valueChunk_eq_concat {line : CookieString} (noAttributes : line.attributes = [])
    (ends : ∀ c ∈ line.text.getLast?, isLightweightSpace c = true ∨ c = 59) :
    ∃ w w' c, line.valueChunk = (w ++ (line.value ++ w')) ++ [c] ∧
      (∀ c ∈ w, isLightweightSpace c = true) ∧ ∀ c ∈ w', isLightweightSpace c = true := by
  have last {init : Text} {c : UInt16}
      (eq : line.nameChunk ++ 61 :: line.valueChunk = init ++ [c]) :
      isLightweightSpace c = true ∨ c = 59 := by
    refine ends c ?_
    rw [CookieString.text, noAttributes, List.append_nil, eq]
    simp
  rcases List.eq_nil_or_concat' line.afterValue with after | ⟨w', c, after⟩
  · rcases List.eq_nil_or_concat' line.value with value | ⟨v, c, value⟩
    · rcases List.eq_nil_or_concat' line.beforeValue with before | ⟨w, c, before⟩
      · have chunk : line.valueChunk = [] := by
          rw [CookieString.valueChunk, after, value, before]; rfl
        exact absurd (last (c := 61) (by rw [chunk])) (by decide)
      · refine ⟨w, [], c, by simp [CookieString.valueChunk, after, value, before], fun d mem => ?_,
          by simp⟩
        exact line.beforeValue_blank d (by rw [before]; exact List.mem_append_left _ mem)
    · exfalso
      have chunk : line.valueChunk = (line.beforeValue ++ v) ++ [c] := by
        rw [CookieString.valueChunk, after, value, List.append_nil, List.append_assoc]
      have := @last (line.nameChunk ++ 61 :: (line.beforeValue ++ v)) c (by
        rw [chunk, List.append_assoc line.nameChunk, List.cons_append])
      rcases this with blank | eq
      · rw [line.value_trimmed.2 c (by rw [value]; simp)] at blank
        cases blank
      · exact (line.value_plain c (by rw [value]; simp)).1 eq
  · refine ⟨line.beforeValue, w', c, by simp [CookieString.valueChunk, after],
      line.beforeValue_blank, fun d mem => ?_⟩
    exact line.afterValue_blank d (by rw [after]; exact List.mem_append_left _ mem)

/-- A blank or `;` at the end of the line has no effect. -/
theorem parseOneCookie_pred (laws : p.IgnoresCase) (line : CookieString)
    (ends : ∀ c ∈ line.text.getLast?, isLightweightSpace c = true ∨ c = 59) :
    parser.parseOneCookie p line.text 0 line.text.length time =
      parser.parseOneCookie p line.text 0 (line.text.length - 1) time := by
  have total := line.length_text
  have whole : line.text.drop 0 =
      line.nameChunk ++ 61 :: ((line.beforeValue ++ (line.value ++ line.afterValue)) ++
        line.attributes) := rfl
  have plain := line.valueChunk_plain
  have chunk_length : (line.beforeValue ++ (line.value ++ line.afterValue)).length =
      line.valueChunk.length := rfl
  rcases List.eq_nil_or_concat' line.attributes with none | ⟨attributes, c, some_eq⟩
  · obtain ⟨w, w', c, chunk, blank, blank'⟩ := valueChunk_eq_concat none ends
    have here : line.text.drop 0 =
        line.nameChunk ++ 61 :: ((w ++ (line.value ++ w')) ++ [c]) := by
      rw [List.drop_zero, CookieString.text, none, List.append_nil, chunk]
    have size : line.valueChunk.length = (w ++ (line.value ++ w')).length + 1 := by
      rw [chunk, List.length_append, List.length_singleton]
    rw [none, List.length_nil] at total
    rw [parseOneCookie_line whole plain line.value_trimmed line.beforeValue_blank
        line.afterValue_blank (by omega) (.inl (by omega)),
      parseOneCookie_line here
        (fun d mem => plain d (by rw [chunk]; exact List.mem_append_left _ mem))
        line.value_trimmed blank blank' (by omega) (.inl (by omega)),
      finish, finish, parseAttributes_stop (by omega), parseAttributes_stop (by omega)]
  · have first : line.attributes.head? = some 59 := by
      obtain ⟨d, others, eq⟩ := List.exists_cons_of_ne_nil (l := line.attributes)
        (by rw [some_eq]; simp)
      rw [eq, List.head?_cons, line.attributes_start d (by rw [eq]; rfl)]
    have positive : 0 < line.attributes.length := by rw [some_eq]; simp
    obtain ⟨n, length⟩ : ∃ n, line.text.length = n + 1 := ⟨line.text.length - 1, by omega⟩
    have text_eq :
      line.text = (line.nameChunk ++ 61 :: (line.valueChunk ++ attributes)) ++ [c] := by
      rw [CookieString.text, some_eq]
      simp only [List.append_assoc, List.cons_append]
    have last : isLightweightSpace (line.text.charAt n) = true ∨ line.text.charAt n = 59 := by
      have char : line.text.charAt n = c := by
        have size := congrArg List.length text_eq
        rw [List.length_append, List.length_singleton, length, Nat.add_right_cancel_iff] at size
        rw [text_eq, Text.charAt, size]
        simp
      rw [char]
      exact ends c (by rw [text_eq]; exact List.getLast?_concat)
    -- both loops over the first pair stop at the attributes
    rw [parseOneCookie_line whole plain line.value_trimmed line.beforeValue_blank
        line.afterValue_blank (by omega) (.inr first),
      parseOneCookie_line whole plain line.value_trimmed line.beforeValue_blank
        line.afterValue_blank (by omega) (.inr first), finish, finish]
    congr 1
    rw [length, Nat.add_sub_cancel]
    exact parseAttributes_pred laws length last _ _ _ _ (by omega) le_rfl le_rfl

end Last

/-! ## The extracted pairs -/

/-- A line in a header. -/
structure LineAt (s : Text) (start : Nat) (line : CookieLine) where
  before : Text
  after : Text
  eq : s = before ++ (line.text ++ after)
  start_eq : before.length = start
  begins : ∀ c ∈ before.getLast?, isCookieHeaderSeparator c = true
  ends : ∀ c ∈ after.head?, isCookieHeaderSeparator c = true

/-- The line passes the attribute, size and policy checks with the name and value it has, which
gives the cookie `c`. -/
def Accepts (p : Platform) (parser : CookieParser) (s : Text) (time : ℚ) (start : Nat)
    (line : CookieLine) (c : ParsedCookie) : Prop :=
  parser.finish p s (start + line.text.length) time (line.pairEnd start)
    (parser.pairCookie time line.name line.value) = some c

theorem lineAt_mem_lineSpans {line : CookieLine} {start : Nat} (here : LineAt s start line) :
    (start, start + line.text.length) ∈ lineSpans s := by
  obtain ⟨before, after, rfl, rfl, begins, ends⟩ := here
  have ne : line.text ≠ [] := by simp [CookieString.text]
  rw [lineSpans, if_neg (by simp [ne])]
  have := mem_spansFrom ne line.text_one_line ends before.length before 0 le_rfl begins
  rwa [Nat.zero_add] at this

/-- What is read at a line. -/
theorem parseOneCookie_lineAt {line : CookieLine} {start : Nat} (here : LineAt s start line) :
    parser.parseOneCookie p s start (start + line.text.length) time =
      parser.finish p s (start + line.text.length) time (line.pairEnd start)
        (parser.pairCookie time
          (s.substring (start + line.beforeName.length)
            (line.beforeName.length + line.name.length)) line.value) := by
  have at' : s.drop start = line.nameChunk ++ 61 ::
      ((line.beforeValue ++ (line.value ++ line.afterValue)) ++
        (line.attributes ++ here.after)) := by
    obtain ⟨before, after, rfl, rfl, begins, ends⟩ := here
    rw [List.drop_left]
    simp only [CookieString.text, CookieString.valueChunk, List.append_assoc, List.cons_append]
  have chunk_length : (line.beforeValue ++ (line.value ++ line.afterValue)).length =
      line.valueChunk.length := rfl
  have total := line.length_text
  refine parseOneCookie_line at' line.valueChunk_plain line.value_trimmed line.beforeValue_blank
    line.afterValue_blank (by omega) ?_
  cases eq : line.attributes with
  | nil =>
    rw [eq, List.length_nil] at total
    exact .inl (by omega)
  | cons c attributes => exact .inr (by rw [line.attributes_start c (by rw [eq]; rfl)]; rfl)

/-- The name that is read is the right one without blanks in front of it. -/
theorem substring_name_iff {line : CookieLine} {start : Nat} (here : LineAt s start line) :
    s.substring (start + line.beforeName.length) (line.beforeName.length + line.name.length) =
      line.name ↔ line.beforeName = [] := by
  have name : s.drop (start + line.beforeName.length) = line.name ++ (line.afterName ++ 61 ::
      (line.valueChunk ++ (line.attributes ++ here.after))) := by
    obtain ⟨before, after, rfl, rfl, begins, ends⟩ := here
    rw [← List.drop_drop, List.drop_left]
    simp only [CookieString.text, CookieString.nameChunk, List.append_assoc, List.cons_append]
    exact List.drop_left
  constructor
  · intro eq
    have length := congrArg List.length eq
    rw [Text.substring, name, List.length_take] at length
    simp only [List.length_append, List.length_cons] at length
    exact List.eq_nil_of_length_eq_zero (by omega)
  · intro eq
    rw [show line.beforeName.length + line.name.length = line.name.length by rw [eq]; simp]
    exact substring_of_drop name

/-- A header gives the cookies of its lines in order. A line that is accepted gives exactly the
cookie with its name and value, if and only if there are no blanks in front of the name. Reading a
line as one cookie gives the same as reading it as a header if its last character has no meaning. -/
theorem parse_exact_iff (laws : p.IgnoresCase) (parser : CookieParser) (time : ℚ) :
    (∀ s, parser.parse p s time =
      (lineSpans s).flatMap fun span => (parser.parseOneCookie p s span.1 span.2 time).toList) ∧
    (∀ s start line c, LineAt s start line → Accepts p parser s time start line c →
      (start, start + line.text.length) ∈ lineSpans s ∧ c.name = line.name ∧ c.value = line.value ∧
      (parser.parseOneCookie p s start (start + line.text.length) time = some c ↔
        line.beforeName = [])) ∧
    ∀ line : CookieLine, (∀ c ∈ line.text.getLast?, isLightweightSpace c = true ∨ c = 59) →
      parser.parse p line.text time = (parser.parseOneCookieString p line.text time).toList := by
  refine ⟨parse_eq, fun s start line c here accepts => ?_, fun line ends => ?_⟩
  · have same := attributes_same accepts
    refine ⟨lineAt_mem_lineSpans here, same.name, same.value, ?_⟩
    rw [parseOneCookie_lineAt here, ← substring_name_iff here]
    constructor
    · intro read
      exact (attributes_same read).name.symm.trans same.name
    · intro eq
      rw [eq]
      exact accepts
  · have ne : line.text ≠ [] := by simp [CookieString.text]
    have single : lineSpans line.text = [(0, line.text.length)] := by
      rw [lineSpans, if_neg ne, List.splitOnP_eq_singleton fun c mem => line.text_one_line c mem,
        spansFrom, Nat.zero_add]
    rw [parse_eq, single, List.flatMap_singleton, parseOneCookieString, if_neg ne,
      parseOneCookie_pred laws line.toCookieString ends]

/-! ## Lines that are read wrongly -/

/-- A URL of a site. -/
def siteURL : URL where
  string := WTF.text "http://www.example.com/"
  isValid := true
  protocol := WTF.text "http"
  host := WTF.text "www.example.com"
  path := WTF.text "/"
  pathStart := 22
  pathAfterLastSlash := 23

theorem blank_nil : ∀ c ∈ ([] : Text), isLightweightSpace c = true := by simp

/-- The pair `a=b` between blanks and attributes. -/
def simpleString (beforeName attributes : Text)
    (blank : ∀ c ∈ beforeName, isLightweightSpace c = true)
    (start : ∀ c ∈ attributes.head?, c = 59) : CookieString where
  beforeName := beforeName
  name := WTF.text "a"
  afterName := []
  beforeValue := []
  value := WTF.text "b"
  afterValue := []
  attributes := attributes
  beforeName_blank := blank
  afterName_blank := blank_nil
  beforeValue_blank := blank_nil
  afterValue_blank := blank_nil
  name_ne_nil := by decide
  name_plain := forall_mem_of_all (by decide)
  name_trimmed := by constructor <;> rintro c ⟨⟩ <;> decide
  value_plain := forall_mem_of_all (by decide)
  value_trimmed := by constructor <;> rintro c ⟨⟩ <;> decide
  attributes_start := start

/-- The line `a=b` with a semicolon is read in the same way as a header and as one cookie. -/
theorem parse_exact_of_semicolon :
    let line : CookieLine := ⟨simpleString [] (WTF.text ";") (by simp) (by rintro c ⟨⟩; rfl),
      forall_mem_of_all (by decide +kernel)⟩
    (new siteURL).parse asciiPlatform line.text 0 =
        ((new siteURL).parseOneCookieString asciiPlatform line.text 0).toList ∧
      ((new siteURL).parse asciiPlatform line.text 0).map (fun c => (c.name, c.value)) =
        [(WTF.text "a", WTF.text "b")] := by
  refine ⟨(parse_exact_iff asciiPlatform_ignoresCase (new siteURL) 0).2.2 _ ?_, by decide +kernel⟩
  rintro c ⟨⟩
  exact .inr rfl

/-- A blank in front of the name `a` makes the name `a=`, and the line `a=b` loses its value when it
is read as one cookie. Both lines are accepted with the name `a` and the value `b`. -/
theorem parse_not_exact :
    let line : CookieLine := ⟨simpleString (WTF.text " ") [] (forall_mem_of_all (by decide))
      (by simp), forall_mem_of_all (by decide +kernel)⟩
    let line' : CookieLine :=
      ⟨simpleString [] [] (by simp) (by simp), forall_mem_of_all (by decide +kernel)⟩
    Nonempty (LineAt line.text 0 line) ∧
      (∃ c, Accepts asciiPlatform (new siteURL) line.text 0 0 line c) ∧
      ((new siteURL).parse asciiPlatform line.text 0).map (·.name) = [WTF.text "a="] ∧
      (∃ c, Accepts asciiPlatform (new siteURL) line'.text 0 0 line' c) ∧
      ((new siteURL).parse asciiPlatform line'.text 0).map (·.value) = [WTF.text "b"] ∧
      ((new siteURL).parseOneCookieString asciiPlatform line'.text 0).map (·.value) =
        some (WTF.text "") := by
  refine ⟨⟨⟨[], [], by decide +kernel, rfl, by simp, by simp⟩⟩, ?_,
    by decide +kernel, ?_, by decide +kernel, by decide +kernel⟩
  · exact Option.isSome_iff_exists.mp (by decide +kernel)
  · exact Option.isSome_iff_exists.mp (by decide +kernel)

end CookieParser

end Odyssey.Network.Cookies
