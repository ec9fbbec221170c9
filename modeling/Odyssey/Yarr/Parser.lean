import Mathlib.Algebra.GroupWithZero.Nat
import Odyssey.WTF.ASCIICType

/-!
# The parser of regular expressions

`Yarr::Parser`. It reads a pattern and reports what it finds to a delegate; the model returns the
calls it makes, in order, and the error it stops with. The position in the pattern is the text that
is left, so saving and restoring it needs no state.

No token is read past its end, and every turn of a loop consumes at least one character, so the
loops are recursive in the length of the text.
-/

namespace Odyssey.Yarr

open WTF WTF.ASCII

inductive BuiltInCharacterClassID where
  | digit
  | space
  | word
  | newline
  deriving DecidableEq, Repr

inductive ErrorCode where
  | patternTooLarge
  | quantifierOutOfOrder
  | quantifierWithoutAtom
  | quantifierTooLarge
  | missingParentheses
  | parenthesesUnmatched
  | parenthesesTypeInvalid
  | characterClassUnmatched
  | characterClassOutOfOrder
  | escapeUnterminated
  deriving DecidableEq, Repr

/-- The calls of the delegate. -/
inductive Callback where
  | assertionBOL
  | assertionEOL
  | assertionWordBoundary (invert : Bool)
  | atomPatternCharacter (ch : UInt16)
  | atomBuiltInCharacterClass (classID : BuiltInCharacterClassID) (invert : Bool)
  | atomCharacterClassBegin (invert : Bool)
  | atomCharacterClassAtom (ch : UInt16)
  | atomCharacterClassRange (lo hi : UInt16)
  | atomCharacterClassBuiltIn (classID : BuiltInCharacterClassID) (invert : Bool)
  | atomCharacterClassEnd
  | atomParenthesesSubpatternBegin (capture : Bool)
  | atomParentheticalAssertionBegin (invert : Bool)
  | atomParenthesesEnd
  | atomBackReference (subpatternId : UInt32)
  | quantifyAtom (min max : UInt32) (greedy : Bool)
  | disjunction
  deriving DecidableEq, Repr

/-- The code unit of a character. -/
def ch (c : Char) : UInt16 := c.toNat.toUInt16

def quantifyInfinite : UInt32 := 0xFFFFFFFF

def maxPatternSize : Nat := 1024 * 1024

/-! ## Numbers -/

def digitValue (c : UInt16) : UInt32 := (c - ch '0').toUInt32

def IsDigits (digits : Text) : Prop := ∀ d ∈ digits, isASCIIDigit d = true

def isASCIIOctalDigit (c : UInt16) : Bool := ch '0' ≤ c && c ≤ ch '7'

/-- The loop of `consumeNumber`: it also stops where the value would become smaller. -/
def consumeDigits (n : UInt32) : Text → UInt32 × Text
  | [] => (n, [])
  | c :: s =>
    if isASCIIDigit c then
      let newValue := n * 10 + digitValue c
      if n ≤ newValue then consumeDigits newValue s else (n, c :: s)
    else
      (n, c :: s)

/-- `consumeNumber`, of a number that begins with the digit `c`. -/
def consumeNumber (c : UInt16) (s : Text) : UInt32 × Text :=
  consumeDigits (digitValue c) s

def consumeOctalDigits (n : UInt16) : Text → UInt16 × Text
  | [] => (n, [])
  | c :: s =>
    if n < 32 && isASCIIOctalDigit c then consumeOctalDigits (n * 8 + (c - ch '0')) s
    else (n, c :: s)

/-- `consumeOctal`, of a number that begins with the digit `c`. -/
def consumeOctal (c : UInt16) (s : Text) : UInt16 × Text :=
  consumeOctalDigits (c - ch '0') s

/-- `tryConsumeHex`, with the value `n` so far. -/
def tryConsumeHex (n : UInt16) : (count : Nat) → Text → Option (UInt16 × Text)
  | 0, s => some (n, s)
  | _ + 1, [] => none
  | count + 1, c :: s =>
    if isASCIIHexDigit c then
      tryConsumeHex ((n <<< 4) ||| (toASCIIHexValue c).toUInt16) count s
    else
      none

def tryConsume (c : UInt16) : Text → Option Text
  | [] => none
  | d :: s => if d = c then some s else none

/-! ## Escapes -/

/-- What `parseEscape` reports. -/
inductive Escape where
  | patternCharacter (ch : UInt16)
  | builtInCharacterClass (classID : BuiltInCharacterClassID) (invert : Bool)
  | wordBoundary (invert : Bool)
  | backReference (subpatternId : UInt32)
  deriving DecidableEq, Repr

/-- The escapes that begin with one of the digits `1` to `9`. -/
def decimalEscape (inCharacterClass : Bool) (backReferenceLimit : UInt32) (c : UInt16)
    (s : Text) : Escape × Text :=
  let number := consumeNumber c s
  if !inCharacterClass && number.1 ≤ backReferenceLimit then
    (.backReference number.1, number.2)
  else if ch '8' ≤ c then
    -- Not a backreference, and not octal: the digit is read again.
    (.patternCharacter (ch '\\'), c :: s)
  else
    let octal := consumeOctal c s
    (.patternCharacter octal.1, octal.2)

/-- Inside a character class, numbers and `_` are control characters too. -/
def isControlCharacter (inCharacterClass : Bool) (control : UInt16) : Bool :=
  if inCharacterClass then isASCIIAlphanumeric control || control == ch '_'
  else isASCIIAlpha control

/-- The escape that begins with the letter `c`; `s` is the text behind it. -/
def controlEscape (inCharacterClass : Bool) (c : UInt16) (s : Text) : Escape × Text :=
  match s with
  | [] => (.patternCharacter (ch '\\'), c :: s)
  | control :: rest =>
    if isControlCharacter inCharacterClass control then
      (.patternCharacter (control &&& 0x1F), rest)
    else
      (.patternCharacter (ch '\\'), c :: s)

/-- The escapes that begin with `x` and `u`. -/
def hexEscape (count : Nat) (c : UInt16) (s : Text) : Escape × Text :=
  match tryConsumeHex 0 count s with
  | none => (.patternCharacter c, s)
  | some (x, rest) => (.patternCharacter x, rest)

/-- The escapes of one letter. -/
def letterEscape (inCharacterClass : Bool) (c : UInt16) : Option Escape :=
  if c = ch 'b' then
    some (if inCharacterClass then .patternCharacter 0x08 else .wordBoundary false)
  else if c = ch 'B' then
    some (if inCharacterClass then .patternCharacter (ch 'B') else .wordBoundary true)
  else if c = ch 'd' then some (.builtInCharacterClass .digit false)
  else if c = ch 's' then some (.builtInCharacterClass .space false)
  else if c = ch 'w' then some (.builtInCharacterClass .word false)
  else if c = ch 'D' then some (.builtInCharacterClass .digit true)
  else if c = ch 'S' then some (.builtInCharacterClass .space true)
  else if c = ch 'W' then some (.builtInCharacterClass .word true)
  else if c = ch 'f' then some (.patternCharacter 0x0C)
  else if c = ch 'n' then some (.patternCharacter 0x0A)
  else if c = ch 'r' then some (.patternCharacter 0x0D)
  else if c = ch 't' then some (.patternCharacter 0x09)
  else if c = ch 'v' then some (.patternCharacter 0x0B)
  else none

/-- The escapes that read on behind their first character. -/
def longEscape (inCharacterClass : Bool) (backReferenceLimit : UInt32) (c : UInt16) (s : Text) :
    Escape × Text :=
  if ch '1' ≤ c ∧ c ≤ ch '9' then decimalEscape inCharacterClass backReferenceLimit c s
  else if c = ch '0' then
    let octal := consumeOctal c s
    (.patternCharacter octal.1, octal.2)
  else if c = ch 'c' then controlEscape inCharacterClass c s
  else if c = ch 'x' then hexEscape 2 c s
  else if c = ch 'u' then hexEscape 4 c s
  else (.patternCharacter c, s)

/-- `parseEscape`, behind the backslash; `none` is `EscapeUnterminated`. -/
def parseEscape (inCharacterClass : Bool) (backReferenceLimit : UInt32) :
    Text → Option (Escape × Text)
  | [] => none
  | c :: s =>
    match letterEscape inCharacterClass c with
    | some escape => some (escape, s)
    | none => some (longEscape inCharacterClass backReferenceLimit c s)

/-! ## Character classes -/

/-- `CharacterClassConstructionState`, with `m_character` where it is read. -/
inductive ClassState where
  | empty
  | cachedCharacter (ch : UInt16)
  | cachedCharacterHyphen (ch : UInt16)
  | afterCharacterClass
  | afterCharacterClassHyphen
  deriving DecidableEq, Repr

namespace ClassState

/-- `CharacterClassParserDelegate::atomPatternCharacter`; `none` is `CharacterClassOutOfOrder`. -/
def atomPatternCharacter (state : ClassState) (c : UInt16) (hyphenIsRange : Bool) :
    Option (List Callback × ClassState) :=
  match state with
  | .afterCharacterClass =>
    if hyphenIsRange && c == ch '-' then
      some ([.atomCharacterClassAtom (ch '-')], .afterCharacterClassHyphen)
    else
      some ([], .cachedCharacter c)
  | .empty => some ([], .cachedCharacter c)
  | .cachedCharacter cached =>
    if hyphenIsRange && c == ch '-' then some ([], .cachedCharacterHyphen cached)
    else some ([.atomCharacterClassAtom cached], .cachedCharacter c)
  | .cachedCharacterHyphen cached =>
    if c < cached then none else some ([.atomCharacterClassRange cached c], .empty)
  | .afterCharacterClassHyphen => some ([.atomCharacterClassAtom c], .empty)

/-- `CharacterClassParserDelegate::atomBuiltInCharacterClass`. -/
def atomBuiltInCharacterClass (state : ClassState) (classID : BuiltInCharacterClassID)
    (invert : Bool) : List Callback × ClassState :=
  match state with
  | .cachedCharacter cached =>
    ([.atomCharacterClassAtom cached, .atomCharacterClassBuiltIn classID invert],
      .afterCharacterClass)
  | .empty | .afterCharacterClass =>
    ([.atomCharacterClassBuiltIn classID invert], .afterCharacterClass)
  | .cachedCharacterHyphen cached =>
    ([.atomCharacterClassAtom cached, .atomCharacterClassAtom (ch '-'),
      .atomCharacterClassBuiltIn classID invert], .empty)
  | .afterCharacterClassHyphen => ([.atomCharacterClassBuiltIn classID invert], .empty)

/-- `CharacterClassParserDelegate::end`. -/
def finish : ClassState → List Callback
  | .cachedCharacter cached => [.atomCharacterClassAtom cached, .atomCharacterClassEnd]
  | .cachedCharacterHyphen cached =>
    [.atomCharacterClassAtom cached, .atomCharacterClassAtom (ch '-'), .atomCharacterClassEnd]
  | _ => [.atomCharacterClassEnd]

/-- What an escape does inside a class. The two calls that the delegate asserts not to be reached do
not occur there. -/
def escape (state : ClassState) : Escape → Option (List Callback × ClassState)
  | .patternCharacter c => state.atomPatternCharacter c false
  | .builtInCharacterClass classID invert => some (state.atomBuiltInCharacterClass classID invert)
  | .wordBoundary _ | .backReference _ => none

end ClassState

/-- One turn of the loop of `parseCharacterClass`, for a character that does not end the class. -/
def parseClassToken (state : ClassState) (c : UInt16) (s : Text) :
    Except ErrorCode (List Callback × ClassState × Text) :=
  if c = ch '\\' then
    match parseEscape true 0 s with
    | none => .error .escapeUnterminated
    | some (escape, rest) =>
      match state.escape escape with
      | none => .error .characterClassOutOfOrder
      | some (callbacks, state) => .ok (callbacks, state, rest)
  else
    match state.atomPatternCharacter c true with
    | none => .error .characterClassOutOfOrder
    | some (callbacks, state) => .ok (callbacks, state, s)

/-! ### Nothing is read twice -/

theorem consumeDigits_length_le (n : UInt32) (s : Text) :
    (consumeDigits n s).2.length ≤ s.length := by
  fun_induction consumeDigits n s with
  | case1 => exact Nat.le_refl _
  | case2 n c s digit newValue le ih => exact Nat.le_succ_of_le ih
  | case3 => exact Nat.le_refl _
  | case4 => exact Nat.le_refl _

theorem consumeOctalDigits_length_le (n : UInt16) (s : Text) :
    (consumeOctalDigits n s).2.length ≤ s.length := by
  fun_induction consumeOctalDigits n s with
  | case1 => exact Nat.le_refl _
  | case2 n c s more ih => exact Nat.le_succ_of_le ih
  | case3 => exact Nat.le_refl _

variable {next : ParserState} {s rest : Text}

theorem tryConsumeHex_length_le {n x : UInt16} {count : Nat}
    (h : tryConsumeHex n count s = some (x, rest)) : rest.length ≤ s.length := by
  fun_induction tryConsumeHex n count s with
  | case1 =>
    obtain ⟨-, rfl⟩ := Prod.mk.inj (Option.some.inj h)
    exact Nat.le_refl _
  | case2 => cases h
  | case3 n count c s hex ih => exact Nat.le_succ_of_le (ih h)
  | case4 => cases h

theorem decimalEscape_length_le (inCharacterClass : Bool) (limit : UInt32) (c : UInt16)
    (s : Text) : (decimalEscape inCharacterClass limit c s).2.length ≤ s.length + 1 := by
  unfold decimalEscape
  dsimp only
  split
  · exact Nat.le_succ_of_le (consumeDigits_length_le _ s)
  · split
    · exact Nat.le_refl _
    · exact Nat.le_succ_of_le (consumeOctalDigits_length_le _ s)

theorem controlEscape_length_le (inCharacterClass : Bool) (c : UInt16) (s : Text) :
    (controlEscape inCharacterClass c s).2.length ≤ s.length + 1 := by
  unfold controlEscape
  split
  · exact Nat.le_refl _
  · split
    · exact Nat.le_succ_of_le (Nat.le_succ _)
    · exact Nat.le_refl _

theorem hexEscape_length_le (count : Nat) (c : UInt16) (s : Text) :
    (hexEscape count c s).2.length ≤ s.length + 1 := by
  unfold hexEscape
  split
  · exact Nat.le_succ _
  · rename_i h
    exact Nat.le_succ_of_le (tryConsumeHex_length_le h)

theorem longEscape_length_le (inCharacterClass : Bool) (limit : UInt32) (c : UInt16) (s : Text) :
    (longEscape inCharacterClass limit c s).2.length ≤ s.length + 1 := by
  unfold longEscape
  repeat' split
  · exact decimalEscape_length_le ..
  · exact Nat.le_succ_of_le (consumeOctalDigits_length_le _ s)
  · exact controlEscape_length_le ..
  · exact hexEscape_length_le ..
  · exact hexEscape_length_le ..
  · exact Nat.le_succ _

theorem parseEscape_length_le {inCharacterClass : Bool} {limit : UInt32} {escape : Escape}
    (h : parseEscape inCharacterClass limit s = some (escape, rest)) :
    rest.length ≤ s.length := by
  cases s with
  | nil => cases h
  | cons c s =>
    simp only [parseEscape] at h
    split at h
    · obtain ⟨-, rfl⟩ := Prod.mk.inj (Option.some.inj h)
      exact Nat.le_succ _
    · obtain rfl : (longEscape inCharacterClass limit c s).2 = rest :=
        congrArg Prod.snd (Option.some.inj h)
      exact longEscape_length_le ..

theorem parseClassToken_length_le {state state' : ClassState} {c : UInt16}
    {callbacks : List Callback} (h : parseClassToken state c s = .ok (callbacks, state', rest)) :
    rest.length ≤ s.length := by
  unfold parseClassToken at h
  split_ifs at h
  · split at h
    · cases h
    · rename_i escape _ eq
      split at h
      · cases h
      · obtain ⟨-, -, rfl⟩ := by simpa only [Except.ok.injEq, Prod.mk.injEq] using h
        exact parseEscape_length_le eq
  · split at h
    · cases h
    · obtain ⟨-, -, rfl⟩ := by simpa only [Except.ok.injEq, Prod.mk.injEq] using h
      exact Nat.le_refl _

/-- The loop of `parseCharacterClass`: the text behind the class. -/
def parseClassTokens (state : ClassState) : Text → List Callback × Except ErrorCode Text
  | [] => ([], .error .characterClassUnmatched)
  | c :: s =>
    if c = ch ']' then
      (state.finish, .ok s)
    else
      match _h : parseClassToken state c s with
      | .error error => ([], .error error)
      | .ok (callbacks, state', rest) =>
        let result := parseClassTokens state' rest
        (callbacks ++ result.1, result.2)
termination_by s => s.length
decreasing_by
  have := parseClassToken_length_le _h
  rw [List.length_cons]
  omega

/-- `parseCharacterClass`, behind the bracket. -/
def parseCharacterClass (s : Text) : List Callback × Except ErrorCode Text :=
  let (invert, s) :=
    match tryConsume (ch '^') s with
    | some rest => (true, rest)
    | none => (false, s)
  let result := parseClassTokens .empty s
  (.atomCharacterClassBegin invert :: result.1, result.2)

/-! ## Tokens -/

/-- Where the loop of `parseTokens` is. -/
structure ParserState where
  rest : Text
  lastTokenWasAnAtom : Bool
  parenthesesNestingDepth : Nat
  deriving DecidableEq, Repr

/-- `parseParenthesesBegin`, behind the parenthesis. -/
def parseParenthesesBegin (depth : Nat) (s : Text) :
    List Callback × Except ErrorCode ParserState :=
  match tryConsume (ch '?') s with
  | none => ([.atomParenthesesSubpatternBegin true], .ok ⟨s, false, depth + 1⟩)
  | some [] => ([], .error .parenthesesTypeInvalid)
  | some (c :: rest) =>
    if c = ch ':' then ([.atomParenthesesSubpatternBegin false], .ok ⟨rest, false, depth + 1⟩)
    else if c = ch '=' then
      ([.atomParentheticalAssertionBegin false], .ok ⟨rest, false, depth + 1⟩)
    else if c = ch '!' then
      ([.atomParentheticalAssertionBegin true], .ok ⟨rest, false, depth + 1⟩)
    else ([], .error .parenthesesTypeInvalid)

/-- `parseParenthesesEnd`, behind the parenthesis. -/
def parseParenthesesEnd (depth : Nat) (s : Text) : List Callback × Except ErrorCode ParserState :=
  if depth > 0 then ([.atomParenthesesEnd], .ok ⟨s, true, depth - 1⟩)
  else ([], .error .parenthesesUnmatched)

/-- `parseQuantifier`, behind the quantifier. -/
def parseQuantifier (lastTokenWasAnAtom : Bool) (min max : UInt32) (depth : Nat) (s : Text) :
    List Callback × Except ErrorCode ParserState :=
  if min = 0xFFFFFFFF then ([], .error .quantifierTooLarge)
  else if lastTokenWasAnAtom then
    match tryConsume (ch '?') s with
    | some rest => ([.quantifyAtom min max false], .ok ⟨rest, false, depth⟩)
    | none => ([.quantifyAtom min max true], .ok ⟨s, false, depth⟩)
  else ([], .error .quantifierWithoutAtom)

/-- The upper bound of a counted quantifier, if there is a comma. -/
def parseUpperBound (min : UInt32) (s : Text) : UInt32 × Text :=
  match tryConsume (ch ',') s with
  | none => (min, s)
  | some [] => (quantifyInfinite, [])
  | some (c :: rest) =>
    if isASCIIDigit c then consumeNumber c rest else (quantifyInfinite, c :: rest)

/-- A counted quantifier, behind the brace; `none` if it is not a complete one. -/
def parseCounted : Text → Option (UInt32 × UInt32 × Text)
  | [] => none
  | c :: s =>
    if isASCIIDigit c then
      let min := consumeNumber c s
      let max := parseUpperBound min.1 min.2
      (tryConsume (ch '\x7d') max.2).map fun rest => (min.1, max.1, rest)
    else
      none

/-- The escape of `parseAtomEscape` as calls of the delegate. -/
def Escape.callback : Escape → Callback
  | .patternCharacter c => .atomPatternCharacter c
  | .builtInCharacterClass classID invert => .atomBuiltInCharacterClass classID invert
  | .wordBoundary invert => .assertionWordBoundary invert
  | .backReference subpatternId => .atomBackReference subpatternId

/-- Whether `parseEscape` returns true. -/
def Escape.isAtom : Escape → Bool
  | .wordBoundary _ => false
  | _ => true

/-- The tokens of one character that report one call whatever comes before, and whether it is an
atom. -/
def characterToken (c : UInt16) : Option (Callback × Bool) :=
  if c = ch '|' then some (.disjunction, false)
  else if c = ch '^' then some (.assertionBOL, false)
  else if c = ch '$' then some (.assertionEOL, false)
  else if c = ch '.' then some (.atomBuiltInCharacterClass .newline true, true)
  else none

/-- The quantifiers of one character. -/
def quantifierToken (c : UInt16) : Option (UInt32 × UInt32) :=
  if c = ch '*' then some (0, quantifyInfinite)
  else if c = ch '+' then some (1, quantifyInfinite)
  else if c = ch '?' then some (0, 1)
  else none

/-- The tokens that begin with a brace: a counted quantifier, or the brace itself. -/
def braceToken (last : Bool) (depth : Nat) (c : UInt16) (s : Text) :
    List Callback × Except ErrorCode ParserState :=
  match parseCounted s with
  | some (min, max, rest) =>
    if min ≤ max then parseQuantifier last min max depth rest
    else ([], .error .quantifierOutOfOrder)
  | none => ([.atomPatternCharacter c], .ok ⟨s, true, depth⟩)

/-- The tokens that begin with a backslash. -/
def escapeToken (backReferenceLimit : UInt32) (depth : Nat) (s : Text) :
    List Callback × Except ErrorCode ParserState :=
  match parseEscape false backReferenceLimit s with
  | none => ([], .error .escapeUnterminated)
  | some (escape, rest) => ([escape.callback], .ok ⟨rest, escape.isAtom, depth⟩)

/-- The tokens that begin with a bracket. -/
def classToken (depth : Nat) (s : Text) : List Callback × Except ErrorCode ParserState :=
  let result := parseCharacterClass s
  (result.1, result.2.map fun rest => ⟨rest, true, depth⟩)

/-- One turn of the loop of `parseTokens`, for the character `c` and the text `s` behind it. -/
def parseToken (backReferenceLimit : UInt32) (last : Bool) (depth : Nat) (c : UInt16) (s : Text) :
    List Callback × Except ErrorCode ParserState :=
  match characterToken c with
  | some (callback, atom) => ([callback], .ok ⟨s, atom, depth⟩)
  | none =>
    match quantifierToken c with
    | some (min, max) => parseQuantifier last min max depth s
    | none =>
      if c = ch '(' then parseParenthesesBegin depth s
      else if c = ch ')' then parseParenthesesEnd depth s
      else if c = ch '[' then classToken depth s
      else if c = ch '\\' then escapeToken backReferenceLimit depth s
      else if c = ch '\x7b' then braceToken last depth c s
      else ([.atomPatternCharacter c], .ok ⟨s, true, depth⟩)

/-! ### Every turn consumes a character -/

theorem tryConsume_length_le {c : UInt16} (h : tryConsume c s = some rest) :
    rest.length ≤ s.length := by
  cases s with
  | nil => cases h
  | cons d s =>
    rw [tryConsume] at h
    split at h
    · cases h
      exact Nat.le_succ _
    · cases h

theorem parseClassTokens_length_le {state : ClassState}
    (h : (parseClassTokens state s).2 = .ok rest) : rest.length ≤ s.length := by
  fun_induction parseClassTokens state s with
  | case1 => cases h
  | case2 =>
    cases h
    exact Nat.le_succ _
  | case3 => cases h
  | case4 state c s closes callbacks state' rest' token result ih =>
    exact Nat.le_succ_of_le (Nat.le_trans (ih h) (parseClassToken_length_le token))

theorem parseQuantifier_length_le {last : Bool} {min max : UInt32} {depth : Nat}
    (h : (parseQuantifier last min max depth s).2 = .ok next) :
    next.rest.length ≤ s.length := by
  unfold parseQuantifier at h
  split at h
  · cases h
  · split at h
    · split at h
      · rename_i rest eq
        cases h
        exact tryConsume_length_le eq
      · cases h
        exact Nat.le_refl _
    · cases h

theorem parseUpperBound_length_le (min : UInt32) (s : Text) :
    (parseUpperBound min s).2.length ≤ s.length := by
  unfold parseUpperBound
  split
  · exact Nat.le_refl _
  · exact Nat.zero_le _
  · rename_i c rest eq
    have le := tryConsume_length_le eq
    split
    · exact Nat.le_trans (consumeDigits_length_le _ rest) (Nat.le_of_succ_le le)
    · exact le

theorem parseCounted_length_le {min max : UInt32} (h : parseCounted s = some (min, max, rest)) :
    rest.length ≤ s.length := by
  cases s with
  | nil => cases h
  | cons c s =>
    rw [parseCounted] at h
    split at h
    · obtain ⟨rest', eq, pair⟩ := Option.map_eq_some_iff.mp h
      obtain ⟨-, -, rfl⟩ := by simpa only [Prod.mk.injEq] using pair
      refine Nat.le_succ_of_le (Nat.le_trans (tryConsume_length_le eq) ?_)
      exact Nat.le_trans (parseUpperBound_length_le ..) (consumeDigits_length_le _ s)
    · cases h

theorem parseParenthesesBegin_length_le {depth : Nat}
    (h : (parseParenthesesBegin depth s).2 = .ok next) : next.rest.length ≤ s.length := by
  unfold parseParenthesesBegin at h
  split at h
  · cases h
    exact Nat.le_refl _
  · cases h
  · rename_i c rest eq
    have le := Nat.le_of_succ_le (tryConsume_length_le eq)
    repeat' split at h
    all_goals cases h
    all_goals exact le

theorem classToken_length_le {depth : Nat} (h : (classToken depth s).2 = .ok next) :
    next.rest.length ≤ s.length := by
  simp only [classToken, parseCharacterClass] at h
  cases eq : tryConsume (ch '^') s with
  | none =>
    simp only [eq] at h
    cases result : (parseClassTokens .empty s).2 with
    | error => simp [result, Except.map] at h
    | ok rest =>
      rw [result] at h
      cases h
      exact parseClassTokens_length_le result
  | some s' =>
    simp only [eq] at h
    cases result : (parseClassTokens .empty s').2 with
    | error => simp [result, Except.map] at h
    | ok rest =>
      rw [result] at h
      cases h
      exact Nat.le_trans (parseClassTokens_length_le result) (tryConsume_length_le eq)

theorem escapeToken_length_le {limit : UInt32} {depth : Nat}
    (h : (escapeToken limit depth s).2 = .ok next) : next.rest.length ≤ s.length := by
  unfold escapeToken at h
  split at h
  · cases h
  · rename_i escape rest eq
    cases h
    exact parseEscape_length_le eq

theorem braceToken_length_le {last : Bool} {depth : Nat} {c : UInt16}
    (h : (braceToken last depth c s).2 = .ok next) :
    next.rest.length ≤ s.length := by
  unfold braceToken at h
  split at h
  · rename_i min max rest eq
    split at h
    · exact Nat.le_trans (parseQuantifier_length_le h) (parseCounted_length_le eq)
    · cases h
  · cases h
    exact Nat.le_refl _

theorem parseToken_length_le {limit : UInt32} {last : Bool} {depth : Nat} {c : UInt16}
    (h : (parseToken limit last depth c s).2 = .ok next) :
    next.rest.length ≤ s.length := by
  unfold parseToken at h
  split at h
  · cases h
    exact Nat.le_refl _
  split at h
  · exact parseQuantifier_length_le h
  split at h
  · exact parseParenthesesBegin_length_le h
  split at h
  · unfold parseParenthesesEnd at h
    split at h
    · cases h
      exact Nat.le_refl _
    · cases h
  split at h
  · exact classToken_length_le h
  split at h
  · exact escapeToken_length_le h
  split at h
  · exact braceToken_length_le h
  · cases h
    exact Nat.le_refl _

/-- `parseTokens`. -/
def parseTokens (backReferenceLimit : UInt32) (last : Bool) (depth : Nat) :
    Text → List Callback × Option ErrorCode
  | [] => ([], if depth > 0 then some .missingParentheses else none)
  | c :: s =>
    let token := parseToken backReferenceLimit last depth c s
    match _h : token.2 with
    | .error error => (token.1, some error)
    | .ok next =>
      let result := parseTokens backReferenceLimit next.lastTokenWasAnAtom
        next.parenthesesNestingDepth next.rest
      (token.1 ++ result.1, result.2)
termination_by s => s.length
decreasing_by
  have := parseToken_length_le _h
  rw [List.length_cons]
  omega

section Turns

variable {limit : UInt32} {last : Bool} {depth : Nat} {c : UInt16} {s : Text}

theorem parseTokens_of_error {error : ErrorCode}
    (h : (parseToken limit last depth c s).2 = .error error) :
    parseTokens limit last depth (c :: s) = ((parseToken limit last depth c s).1, some error) := by
  rw [parseTokens]
  split
  · rename_i error' h'
    cases h.symm.trans h'
    rfl
  · rename_i next h'
    cases h.symm.trans h'

theorem parseTokens_of_ok {next : ParserState}
    (h : (parseToken limit last depth c s).2 = .ok next) :
    parseTokens limit last depth (c :: s) =
      ((parseToken limit last depth c s).1 ++
          (parseTokens limit next.lastTokenWasAnAtom next.parenthesesNestingDepth next.rest).1,
        (parseTokens limit next.lastTokenWasAnAtom next.parenthesesNestingDepth next.rest).2) := by
  rw [parseTokens]
  split
  · rename_i error h'
    cases h.symm.trans h'
  · rename_i next' h'
    cases h.symm.trans h'
    rfl

end Turns

/-- `Yarr::parse`. -/
def parse (pattern : Text) (backReferenceLimit : UInt32) : List Callback × Option ErrorCode :=
  if pattern.length > maxPatternSize then ([], some .patternTooLarge)
  else parseTokens backReferenceLimit false 0 pattern

example : parse (text "a\x7b2,3\x7d?|\\1[b-d]") quantifyInfinite =
    ([.atomPatternCharacter (ch 'a'), .quantifyAtom 2 3 false, .disjunction, .atomBackReference 1,
      .atomCharacterClassBegin false, .atomCharacterClassRange (ch 'b') (ch 'd'),
      .atomCharacterClassEnd], none) := by
  decide +kernel

end Odyssey.Yarr
