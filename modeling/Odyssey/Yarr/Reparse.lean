import Mathlib.Tactic.Linarith
import Odyssey.Yarr.Parser

/-!
# The second parse

`YarrPattern::compile` parses a pattern again if it has a back reference to a group that does not
exist. The two parses read the same text in pieces of different lengths: a back reference takes all
the digits behind the backslash, an octal escape at most three, and a backslash before `8` or `9`
none. Both are in the same state again at the end of the digits the first one took, since digits
alone are pattern characters.
-/

namespace Odyssey.Yarr

open WTF WTF.ASCII

/-! ## What the constructor counts -/

/-- The fields of `YarrPattern` that `containsIllegalBackReference` reads. -/
structure Counters where
  numSubpatterns : UInt32
  maxBackReference : UInt32

def Counters.count (counters : Counters) : Callback → Counters
  | .atomParenthesesSubpatternBegin true =>
    { counters with numSubpatterns := counters.numSubpatterns + 1 }
  | .atomBackReference subpatternId =>
    { counters with maxBackReference := max counters.maxBackReference subpatternId }
  | _ => counters

/-- The fields after the calls, from the values that `reset` gives them. -/
def counters (callbacks : List Callback) : Counters := callbacks.foldl .count ⟨0, 0⟩

def Counters.containsIllegalBackReference (counters : Counters) : Bool :=
  counters.numSubpatterns < counters.maxBackReference

/-! ## Two lists of calls -/

/-- The second list of calls is the first one with the back references above `limit` replaced by
pattern characters. -/
inductive Replaced (limit : UInt32) : List Callback → List Callback → Prop where
  | nil : Replaced limit [] []
  | same {callback : Callback} {first second : List Callback} :
      (∀ n, callback = .atomBackReference n → n ≤ limit) → Replaced limit first second →
      Replaced limit (callback :: first) (callback :: second)
  | characters {n : UInt32} {c : UInt16} {text : Text} {first second : List Callback} :
      limit < n → Replaced limit first second →
      Replaced limit (.atomBackReference n :: first)
        ((c :: text).map .atomPatternCharacter ++ second)

/-- The calls for groups, disjunctions, anchors and quantifiers. -/
def Callback.isStructure : Callback → Bool
  | .assertionBOL | .assertionEOL | .assertionWordBoundary _ | .atomParenthesesSubpatternBegin _
  | .atomParentheticalAssertionBegin _ | .atomParenthesesEnd | .quantifyAtom .. | .disjunction =>
    true
  | _ => false

namespace Replaced

variable {limit : UInt32} {first second : List Callback}

theorem append_same {callbacks : List Callback}
    (legal : ∀ n, .atomBackReference n ∈ callbacks → n ≤ limit)
    (h : Replaced limit first second) :
    Replaced limit (callbacks ++ first) (callbacks ++ second) := by
  induction callbacks with
  | nil => exact h
  | cons callback callbacks ih =>
    refine .same ?_ (ih fun n hn => legal n (List.mem_cons_of_mem _ hn))
    rintro n rfl
    exact legal n List.mem_cons_self

/-- No back reference above the limit is left. -/
theorem le_of_mem (h : Replaced limit first second) {n : UInt32}
    (mem : .atomBackReference n ∈ second) : n ≤ limit := by
  induction h with
  | nil => cases mem
  | same legal _ ih =>
    rcases List.mem_cons.mp mem with rfl | mem
    · exact legal n rfl
    · exact ih mem
  | characters _ _ ih =>
    rcases List.mem_append.mp mem with mem | mem
    · obtain ⟨_, -, eq⟩ := List.mem_map.mp mem
      cases eq
    · exact ih mem

theorem filter_characters {p : Callback → Bool} (hp : ∀ c, p (.atomPatternCharacter c) = false)
    (text : Text) : (text.map Callback.atomPatternCharacter).filter p = [] := by
  rw [List.filter_eq_nil_iff]
  intro callback mem
  obtain ⟨c, -, rfl⟩ := List.mem_map.mp mem
  rw [hp]
  exact Bool.false_ne_true

/-- The calls of any kind that has neither back references nor pattern characters are the same. -/
theorem filter_eq (h : Replaced limit first second) {p : Callback → Bool}
    (hp : ∀ c, p (.atomPatternCharacter c) = false) (hn : ∀ n, p (.atomBackReference n) = false) :
    second.filter p = first.filter p := by
  induction h with
  | nil => rfl
  | same _ _ ih => rw [List.filter_cons, List.filter_cons, ih]
  | @characters n _ _ _ _ _ _ ih =>
    rw [List.filter_append, filter_characters hp, List.nil_append, ih,
      List.filter_cons_of_neg (by rw [hn]; exact Bool.false_ne_true)]

end Replaced

/-- The calls that `numSubpatterns` counts. -/
def Callback.isCapture : Callback → Bool
  | .atomParenthesesSubpatternBegin true => true
  | _ => false

theorem numSubpatterns_foldl (callbacks : List Callback) (start : Counters) :
    (callbacks.foldl .count start).numSubpatterns =
      start.numSubpatterns + UInt32.ofNat (callbacks.filter Callback.isCapture).length := by
  induction callbacks generalizing start with
  | nil => simp
  | cons callback callbacks ih =>
    rw [List.foldl_cons, ih, List.filter_cons]
    by_cases capture : callback.isCapture = true
    · have eq : (start.count callback).numSubpatterns = start.numSubpatterns + 1 := by
        unfold Callback.isCapture at capture
        split at capture
        · rfl
        · cases capture
      rw [if_pos capture, eq, List.length_cons, UInt32.ofNat_add, UInt32.add_assoc]
      congr 1
      exact UInt32.add_comm _ _
    · have eq : (start.count callback).numSubpatterns = start.numSubpatterns := by
        unfold Counters.count
        split
        · exact absurd rfl capture
        · rfl
        · rfl
      rw [if_neg capture, eq]

theorem numSubpatterns_counters (callbacks : List Callback) :
    (counters callbacks).numSubpatterns =
      UInt32.ofNat (callbacks.filter Callback.isCapture).length := by
  rw [counters, numSubpatterns_foldl]
  exact UInt32.zero_add _

/-! ## Where the two parses meet again -/

/-- The value of an octal digit, as both readers get it. -/
theorem octalDigit_spec {c : UInt16} (h : isASCIIOctalDigit c = true) :
    isASCIIDigit c = true ∧ (digitValue c).toNat = (c - ch '0').toNat ∧
      (c - ch '0').toNat ≤ 7 := by
  simp only [isASCIIOctalDigit, Bool.and_eq_true, decide_eq_true_eq] at h
  obtain ⟨low, high⟩ := h
  have hlow : 48 ≤ c.toNat := UInt16.le_iff_toNat_le.mp low
  have hhigh : c.toNat ≤ 55 := UInt16.le_iff_toNat_le.mp high
  have value : (c - ch '0').toNat = c.toNat - 48 := UInt16.toNat_sub_of_le _ _ low
  refine ⟨?_, rfl, by omega⟩
  have le : c ≤ 0x39 := UInt16.le_iff_toNat_le.mpr (show c.toNat ≤ 57 by omega)
  rw [isASCIIDigit, Bool.and_eq_true, decide_eq_true_eq, decide_eq_true_eq]
  exact ⟨low, le⟩

/-- `consumeNumber` reads digits only. -/
theorem consumeDigits_append (n : UInt32) (s : Text) :
    ∃ digits, IsDigits digits ∧ s = digits ++ (consumeDigits n s).2 := by
  fun_induction consumeDigits n s with
  | case1 => exact ⟨[], by simp [IsDigits], rfl⟩
  | case2 n c s digit newValue le ih =>
    obtain ⟨digits, all, eq⟩ := ih
    refine ⟨c :: digits, ?_, by rw [List.cons_append, ← eq]⟩
    intro d mem
    rcases List.mem_cons.mp mem with rfl | mem
    · exact digit
    · exact all d mem
  | case3 => exact ⟨[], by simp [IsDigits], rfl⟩
  | case4 => exact ⟨[], by simp [IsDigits], rfl⟩

/-- A number is read at least as far as an octal escape that begins at the same digit: while the
octal value `n` is small enough to go on, the decimal value of the same digits is at most `n ^ 2`
and cannot overflow. -/
theorem consumeOctalDigits_append {n : UInt16} {m : UInt32} (pos : 0 < n.toNat)
    (le : m.toNat ≤ n.toNat ^ 2) (s : Text) :
    ∃ digits, IsDigits digits ∧ (consumeOctalDigits n s).2 = digits ++ (consumeDigits m s).2 := by
  induction s generalizing n m with
  | nil => exact ⟨[], by simp [IsDigits], rfl⟩
  | cons c s ih =>
    rw [consumeOctalDigits]
    split
    · rename_i more
      obtain ⟨small, octal⟩ := Bool.and_eq_true_iff.mp more
      obtain ⟨digit, value, le7⟩ := octalDigit_spec octal
      have small : n.toNat < 32 := UInt16.lt_iff_toNat_lt.mp (decide_eq_true_eq.mp small)
      have square : n.toNat ^ 2 ≤ 32 ^ 2 := Nat.pow_le_pow_left (Nat.le_of_lt small) 2
      have hn : (n * 8 + (c - ch '0')).toNat = n.toNat * 8 + (c - ch '0').toNat := by
        rw [UInt16.toNat_add, UInt16.toNat_mul]
        change (n.toNat * 8 % 2 ^ 16 + (c - ch '0').toNat) % 2 ^ 16 = _
        omega
      have hm : (m * 10 + digitValue c).toNat = m.toNat * 10 + (c - ch '0').toNat := by
        rw [UInt32.toNat_add, UInt32.toNat_mul, value]
        change (m.toNat * 10 % 2 ^ 32 + (c - ch '0').toNat) % 2 ^ 32 = _
        omega
      rw [consumeDigits, if_pos digit, if_pos (UInt32.le_iff_toNat_le.mpr (by omega))]
      refine ih (by omega) ?_
      rw [hn, hm]
      nlinarith
    · exact consumeDigits_append m (c :: s)

theorem parseToken_digit {limit : UInt32} {last : Bool} {depth : Nat} {d : UInt16}
    (digit : isASCIIDigit d = true) (s : Text) :
    parseToken limit last depth d s = ([.atomPatternCharacter d], .ok ⟨s, true, depth⟩) := by
  have ne (x : UInt16) (hx : isASCIIDigit x = false) : d ≠ x := by
    rintro rfl
    rw [digit] at hx
    cases hx
  simp (disch := decide) only [parseToken, characterToken, quantifierToken, ne, if_false]

/-- Behind an atom, digits are pattern characters. -/
theorem parseTokens_digits {limit : UInt32} {depth : Nat} {digits : Text} (all : IsDigits digits)
    (s : Text) :
    parseTokens limit true depth (digits ++ s) =
      (digits.map .atomPatternCharacter ++ (parseTokens limit true depth s).1,
        (parseTokens limit true depth s).2) := by
  induction digits with
  | nil => rfl
  | cons d digits ih =>
    have token : parseToken limit true depth d (digits ++ s) =
        ([.atomPatternCharacter d], .ok ⟨digits ++ s, true, depth⟩) :=
      parseToken_digit (all d List.mem_cons_self) _
    rw [List.cons_append, parseTokens_of_ok (by rw [token]), token]
    rw [ih fun d hd => all d (List.mem_cons_of_mem _ hd)]
    rfl

/-- Where the first parse finds a back reference above the limit, the second finds a pattern
character and stops at digits that the first took. -/
theorem decimalEscape_of_lt {limit : UInt32} {c : UInt16} (low : ch '1' ≤ c) (high : c ≤ ch '9')
    {s : Text} (lt : limit < (consumeNumber c s).1) :
    ∃ x digits, IsDigits digits ∧
      decimalEscape false limit c s = (.patternCharacter x, digits ++ (consumeNumber c s).2) := by
  have hlow : 49 ≤ c.toNat := UInt16.le_iff_toNat_le.mp low
  have illegal : (!false && decide ((consumeNumber c s).1 ≤ limit)) = false := by
    rw [Bool.not_false, Bool.true_and, decide_eq_false_iff_not]
    exact UInt32.not_le.mpr lt
  rw [decimalEscape]
  dsimp only
  rw [illegal, if_neg Bool.false_ne_true]
  split
  · obtain ⟨digits, all, eq⟩ := consumeDigits_append (digitValue c) s
    refine ⟨ch '\\', c :: digits, ?_, by rw [List.cons_append, consumeNumber, ← eq]⟩
    intro d mem
    rcases List.mem_cons.mp mem with rfl | mem
    · have le : ch '0' ≤ d := UInt16.le_iff_toNat_le.mpr (show 48 ≤ d.toNat by omega)
      rw [isASCIIDigit, Bool.and_eq_true, decide_eq_true_eq, decide_eq_true_eq]
      exact ⟨le, high⟩
    · exact all d mem
  · rename_i octal
    have hhigh : c.toNat ≤ 55 := by
      have : c.toNat < 56 := UInt16.lt_iff_toNat_lt.mp (UInt16.not_le.mp octal)
      omega
    have le : ch '0' ≤ c := UInt16.le_iff_toNat_le.mpr (show 48 ≤ c.toNat by omega)
    have value : (c - ch '0').toNat = c.toNat - 48 := UInt16.toNat_sub_of_le _ _ le
    have same : (digitValue c).toNat = (c - ch '0').toNat := rfl
    obtain ⟨digits, all, eq⟩ := consumeOctalDigits_append (n := c - ch '0') (m := digitValue c)
      (by omega) (by rw [same]; exact Nat.le_self_pow (by decide) _) s
    exact ⟨_, digits, all, by rw [consumeOctal, consumeNumber, eq]⟩

/-! ## The two parses -/

/-- The back references among the calls are legal. -/
def Legal (limit : UInt32) (callbacks : List Callback) : Prop :=
  ∀ n, .atomBackReference n ∈ callbacks → n ≤ limit

section Legal

variable {limit : UInt32}

theorem Legal.nil : Legal limit [] := fun _ mem => absurd mem List.not_mem_nil

theorem Legal.singleton {callback : Callback} (h : ∀ n, callback ≠ .atomBackReference n) :
    Legal limit [callback] :=
  fun n mem => absurd (List.mem_singleton.mp mem).symm (h n)

theorem Legal.append {first second : List Callback} (hfirst : Legal limit first)
    (hsecond : Legal limit second) : Legal limit (first ++ second) :=
  fun n mem => (List.mem_append.mp mem).elim (hfirst n) (hsecond n)

theorem ClassState.legal_atomPatternCharacter {state state' : ClassState} {c : UInt16}
    {hyphenIsRange : Bool} {callbacks : List Callback}
    (h : state.atomPatternCharacter c hyphenIsRange = some (callbacks, state')) :
    Legal limit callbacks := by
  unfold ClassState.atomPatternCharacter at h
  repeat' split at h
  all_goals cases h
  all_goals first | exact .nil | exact .singleton (by simp)

theorem ClassState.legal_atomBuiltInCharacterClass (state : ClassState)
    (classID : BuiltInCharacterClassID) (invert : Bool) :
    Legal limit (state.atomBuiltInCharacterClass classID invert).1 := by
  cases state <;> simp [Legal, ClassState.atomBuiltInCharacterClass]

theorem ClassState.legal_finish (state : ClassState) : Legal limit state.finish := by
  cases state <;> simp [Legal, ClassState.finish]

theorem legal_parseClassToken {state state' : ClassState} {c : UInt16} {s rest : Text}
    {callbacks : List Callback} (h : parseClassToken state c s = .ok (callbacks, state', rest)) :
    Legal limit callbacks := by
  unfold parseClassToken at h
  split at h
  · split at h
    · cases h
    · rename_i escape _ _
      split at h
      · cases h
      · rename_i eq
        cases h
        cases escape with
        | patternCharacter c => exact ClassState.legal_atomPatternCharacter eq
        | builtInCharacterClass classID invert =>
          have := @ClassState.legal_atomBuiltInCharacterClass limit state classID invert
          rwa [Option.some.inj eq] at this
        | wordBoundary invert => cases eq
        | backReference n => cases eq
  · split at h
    · cases h
    · rename_i eq
      cases h
      exact ClassState.legal_atomPatternCharacter eq

theorem legal_parseClassTokens (state : ClassState) (s : Text) :
    Legal limit (parseClassTokens state s).1 := by
  fun_induction parseClassTokens state s with
  | case1 => exact .nil
  | case2 state s => exact state.legal_finish
  | case3 => exact .nil
  | case4 state c s hc callbacks state' rest eq result ih =>
    exact (legal_parseClassToken eq).append ih

theorem legal_classToken (depth : Nat) (s : Text) : Legal limit (classToken depth s).1 := by
  have begins (invert : Bool) (s : Text) :
      Legal limit (.atomCharacterClassBegin invert :: (parseClassTokens .empty s).1) :=
    (Legal.singleton (by simp)).append (legal_parseClassTokens .empty s)
  exact begins _ _

theorem legal_parseParenthesesBegin (depth : Nat) (s : Text) :
    Legal limit (parseParenthesesBegin depth s).1 := by
  unfold parseParenthesesBegin
  repeat' split
  all_goals first | exact .nil | exact .singleton (by simp)

theorem legal_parseQuantifier (last : Bool) (min max : UInt32) (depth : Nat) (s : Text) :
    Legal limit (parseQuantifier last min max depth s).1 := by
  unfold parseQuantifier
  repeat' split
  all_goals first | exact .nil | exact .singleton (by simp)

theorem legal_braceToken (last : Bool) (depth : Nat) (c : UInt16) (s : Text) :
    Legal limit (braceToken last depth c s).1 := by
  unfold braceToken
  split
  · split
    · exact legal_parseQuantifier _ _ _ _ _
    · exact .nil
  · exact .singleton (by simp)

theorem legal_characterToken {c : UInt16} {callback : Callback} {atom : Bool}
    (h : characterToken c = some (callback, atom)) : Legal limit [callback] := by
  refine .singleton ?_
  unfold characterToken at h
  repeat' split at h
  all_goals cases h
  all_goals simp

end Legal

theorem longEscape_ne_backReference {limit : UInt32} {c : UInt16}
    (h : ¬ (ch '1' ≤ c ∧ c ≤ ch '9')) (s : Text) (n : UInt32) :
    (longEscape false limit c s).1 ≠ .backReference n := by
  rw [longEscape, if_neg h]
  unfold controlEscape hexEscape
  repeat' split
  all_goals exact Escape.noConfusion

/-- An escape of the two parses. -/
theorem longEscape_cases (limit : UInt32) (c : UInt16) (s : Text) :
    (longEscape false limit c s = longEscape false quantifyInfinite c s ∧
      ∀ n, (longEscape false limit c s).1 = .backReference n → n ≤ limit) ∨
    ∃ n x digits rest, limit < n ∧ IsDigits digits ∧
      longEscape false quantifyInfinite c s = (.backReference n, rest) ∧
      longEscape false limit c s = (.patternCharacter x, digits ++ rest) := by
  by_cases decimal : ch '1' ≤ c ∧ c ≤ ch '9'
  · have all : (consumeNumber c s).1 ≤ quantifyInfinite :=
      UInt32.le_iff_toNat_le.mpr (Nat.le_of_lt_succ (consumeNumber c s).1.toNat_lt)
    have reference {limit : UInt32} (le : (consumeNumber c s).1 ≤ limit) :
        longEscape false limit c s =
          (.backReference (consumeNumber c s).1, (consumeNumber c s).2) := by
      rw [longEscape, if_pos decimal, decimalEscape]
      simp [le]
    rcases UInt32.lt_or_le limit (consumeNumber c s).1 with lt | le
    · obtain ⟨x, digits, allDigits, eq⟩ := decimalEscape_of_lt decimal.1 decimal.2 lt
      refine .inr ⟨_, x, digits, _, lt, allDigits, reference all, ?_⟩
      rw [longEscape, if_pos decimal, eq]
    · refine .inl ⟨by rw [reference le, reference all], fun n eq => ?_⟩
      rw [reference le] at eq
      cases eq
      exact le
  · refine .inl ⟨by rw [longEscape, longEscape, if_neg decimal, if_neg decimal], fun n eq => ?_⟩
    exact absurd eq (longEscape_ne_backReference decimal s n)

theorem ite_ne_of_ne {α : Type} {p : Prop} [Decidable p] {a b x : α} (ha : a ≠ x) (hb : b ≠ x) :
    (if p then a else b) ≠ x := by
  split
  · exact ha
  · exact hb

theorem letterEscape_ne_backReference (c : UInt16) (n : UInt32) :
    letterEscape false c ≠ some (.backReference n) := by
  unfold letterEscape
  iterate 13 refine ite_ne_of_ne (by simp) ?_
  simp

theorem Escape.eq_of_callback {escape : Escape} {n : UInt32}
    (h : escape.callback = .atomBackReference n) : escape = .backReference n := by
  cases escape <;> cases h
  rfl

theorem escapeToken_cases (limit : UInt32) (depth : Nat) (s : Text) :
    (escapeToken limit depth s = escapeToken quantifyInfinite depth s ∧
      Legal limit (escapeToken limit depth s).1) ∨
    ∃ n x digits rest, limit < n ∧ IsDigits digits ∧
      escapeToken quantifyInfinite depth s = ([.atomBackReference n], .ok ⟨rest, true, depth⟩) ∧
      escapeToken limit depth s =
        ([.atomPatternCharacter x], .ok ⟨digits ++ rest, true, depth⟩) := by
  cases s with
  | nil => exact .inl ⟨rfl, .nil⟩
  | cons c s =>
    have step (limit : UInt32) (h : letterEscape false c = none) :
        escapeToken limit depth (c :: s) = ([(longEscape false limit c s).1.callback],
          .ok ⟨(longEscape false limit c s).2, (longEscape false limit c s).1.isAtom, depth⟩) := by
      simp only [escapeToken, parseEscape, h]
    cases letter : letterEscape false c with
    | some escape =>
      have eq (limit : UInt32) : escapeToken limit depth (c :: s) =
          ([escape.callback], .ok ⟨s, escape.isAtom, depth⟩) := by
        simp only [escapeToken, parseEscape, letter]
      refine .inl ⟨by rw [eq, eq], ?_⟩
      rw [eq]
      refine .singleton fun n callback => letterEscape_ne_backReference c n ?_
      rw [letter, Escape.eq_of_callback callback]
    | none =>
      rw [step limit letter, step quantifyInfinite letter]
      rcases longEscape_cases limit c s with
        ⟨same, legal⟩ | ⟨n, x, digits, rest, lt, all, first, second⟩
      · refine .inl ⟨by rw [same], fun n mem => legal n ?_⟩
        exact Escape.eq_of_callback (List.mem_singleton.mp mem).symm
      · refine .inr ⟨n, x, digits, rest, lt, all, ?_, ?_⟩
        · rw [first]
          rfl
        · rw [second]
          rfl

/-- One token of the two parses: the same calls and the same state, or a back reference and a
pattern character with the digits that the back reference took still to come. -/
theorem parseToken_cases (limit : UInt32) (last : Bool) (depth : Nat) (c : UInt16) (s : Text) :
    (parseToken limit last depth c s = parseToken quantifyInfinite last depth c s ∧
      Legal limit (parseToken limit last depth c s).1) ∨
    ∃ n x digits rest, limit < n ∧ IsDigits digits ∧
      parseToken quantifyInfinite last depth c s =
        ([.atomBackReference n], .ok ⟨rest, true, depth⟩) ∧
      parseToken limit last depth c s =
        ([.atomPatternCharacter x], .ok ⟨digits ++ rest, true, depth⟩) := by
  unfold parseToken
  split
  · exact .inl ⟨rfl, legal_characterToken ‹_›⟩
  split
  · exact .inl ⟨rfl, legal_parseQuantifier _ _ _ _ _⟩
  split
  · exact .inl ⟨rfl, legal_parseParenthesesBegin _ _⟩
  split
  · refine .inl ⟨rfl, ?_⟩
    unfold parseParenthesesEnd
    split
    · exact .singleton (by simp)
    · exact .nil
  split
  · exact .inl ⟨rfl, legal_classToken _ _⟩
  split
  · exact escapeToken_cases limit depth s
  split
  · exact .inl ⟨rfl, legal_braceToken _ _ _ _⟩
  · exact .inl ⟨rfl, .singleton (by simp)⟩

theorem parseTokens_replaced (limit : UInt32) (last : Bool) (depth : Nat) (s : Text) :
    (parseTokens limit last depth s).2 = (parseTokens quantifyInfinite last depth s).2 ∧
      Replaced limit (parseTokens quantifyInfinite last depth s).1
        (parseTokens limit last depth s).1 := by
  induction hlen : s.length using Nat.strongRecOn generalizing last depth s with
  | ind length ih =>
    cases s with
    | nil =>
      rw [parseTokens, parseTokens]
      exact ⟨rfl, .nil⟩
    | cons c s =>
      rw [List.length_cons] at hlen
      rcases parseToken_cases limit last depth c s with
        ⟨same, legal⟩ | ⟨n, x, digits, rest, lt, all, first, second⟩
      · cases result : (parseToken limit last depth c s).2 with
        | error error =>
          rw [parseTokens_of_error result, parseTokens_of_error (same ▸ result), same]
          refine ⟨rfl, ?_⟩
          have := @Replaced.append_same _ [] [] _ legal .nil
          rwa [List.append_nil, same] at this
        | ok next =>
          have shorter := parseToken_length_le result
          obtain ⟨error, replaced⟩ := ih next.rest.length (by omega) next.lastTokenWasAnAtom
            next.parenthesesNestingDepth next.rest rfl
          rw [parseTokens_of_ok result, parseTokens_of_ok (same ▸ result), ← same]
          exact ⟨error, replaced.append_same legal⟩
      · have firstOk : (parseToken quantifyInfinite last depth c s).2 =
            .ok ⟨rest, true, depth⟩ := by
          rw [first]
        have shorter : rest.length ≤ s.length := parseToken_length_le firstOk
        obtain ⟨error, replaced⟩ := ih rest.length (by omega) true depth rest rfl
        have secondOk : (parseToken limit last depth c s).2 =
            .ok ⟨digits ++ rest, true, depth⟩ := by
          rw [second]
        rw [parseTokens_of_ok firstOk, parseTokens_of_ok secondOk, first, second]
        dsimp only
        rw [parseTokens_digits all]
        exact ⟨error, .characters lt replaced⟩

theorem parse_replaced (pattern : Text) (limit : UInt32) :
    (parse pattern limit).2 = (parse pattern quantifyInfinite).2 ∧
      Replaced limit (parse pattern quantifyInfinite).1 (parse pattern limit).1 := by
  unfold parse
  split
  · exact ⟨rfl, .nil⟩
  · exact parseTokens_replaced limit false 0 pattern

/-- The second parse of `YarrPattern::compile` succeeds as the first did, counts the same groups,
has no back reference to a group that does not exist, and reports the same calls but for such back
references, which become pattern characters. -/
theorem reparse_consistent {pattern : Text} {first second : List Callback} {k : UInt32}
    {error : Option ErrorCode} (succeeds : parse pattern quantifyInfinite = (first, none))
    (hk : (counters first).numSubpatterns = k)
    (_illegal : (counters first).containsIllegalBackReference = true)
    (again : parse pattern k = (second, error)) :
    error = none ∧ (counters second).numSubpatterns = k ∧
      (second.filter Callback.isCapture).length = (first.filter Callback.isCapture).length ∧
      (∀ n, .atomBackReference n ∈ second → n ≤ k) ∧
      second.filter Callback.isStructure = first.filter Callback.isStructure ∧
      Replaced k first second := by
  obtain ⟨same, replaced⟩ := parse_replaced pattern k
  rw [succeeds, again] at same replaced
  have captures := replaced.filter_eq (p := Callback.isCapture) (fun _ => rfl) (fun _ => rfl)
  refine ⟨same, ?_, congrArg List.length captures, fun n mem => replaced.le_of_mem mem,
    replaced.filter_eq (fun _ => rfl) (fun _ => rfl), replaced⟩
  rw [numSubpatterns_counters, captures, ← numSubpatterns_counters, hk]

/-- The pattern `(a)\12*` has one group, so its back reference becomes a line feed. -/
theorem reparse_consistent_octal :
    (parse (text "(a)\\12*") 1).1 = [.atomParenthesesSubpatternBegin true,
      .atomPatternCharacter (ch 'a'), .atomParenthesesEnd, .atomPatternCharacter 10,
      .quantifyAtom 0 quantifyInfinite true] ∧
    (parse (text "(a)\\12*") 1).2 = none := by
  refine ⟨by decide +kernel, ?_⟩
  exact (@reparse_consistent (text "(a)\\12*") [.atomParenthesesSubpatternBegin true,
    .atomPatternCharacter (ch 'a'), .atomParenthesesEnd, .atomBackReference 12,
    .quantifyAtom 0 quantifyInfinite true] _ 1 _ (by decide +kernel) (by decide) (by decide) rfl).1

end Odyssey.Yarr
