import Mathlib.Data.Rat.Defs
import Odyssey.WTF.Text

/-!
# Parsing cookies

`CookieParser` splits a header into lines and reads one cookie from every line. The URL is given by
its components, and the functions of other parts of the system by a `Platform`.
-/
namespace Odyssey.Network.Cookies

open WTF

/-- The components of a `URL` that the cookie code reads. -/
structure URL where
  string : Text
  isValid : Bool
  protocol : Text
  host : Text
  path : Text
  pathStart : Nat
  pathAfterLastSlash : Nat

/-- Schemes are in lower case in a valid URL. -/
def URL.protocolIs (url : URL) (protocol : Text) : Bool := url.isValid && url.protocol == protocol

inductive CookieStorageAcceptPolicy where
  | always
  | never
  | onlyFromMainDocumentDomain
  deriving DecidableEq

/-- What the cookie code uses of the string library, of libcurl and of the application. -/
structure Platform where
  lower : Text → Text
  equalIgnoringCase : Text → Text → Bool
  toIntStrict : Text → Option Int
  toInt : Text → Int
  decodeURLEscapeSequences : Text → Text
  curlGetdate : Text → Int
  cookiePolicyForURLAndName : URL → Text → CookieStorageAcceptPolicy

def toASCIILower (c : UInt16) : UInt16 := if 65 ≤ c ∧ c ≤ 90 then c + 32 else c

/-- A platform for ASCII text without escapes, numbers and dates, whose user accepts every
cookie. -/
def asciiPlatform : Platform where
  lower s := s.map toASCIILower
  equalIgnoringCase s s' := s.map toASCIILower == s'.map toASCIILower
  toIntStrict _ := none
  toInt _ := 0
  decodeURLEscapeSequences s := s
  curlGetdate _ := -1
  cookiePolicyForURLAndName _ _ := .always

/-- A cookie. Times are seconds. -/
structure ParsedCookie where
  name : Text
  value : Text
  domain : Text
  protocol : Text
  path : Text
  expiry : ℚ
  creationTime : ℚ
  lastAccessed : ℚ
  isSecure : Bool
  isHttpOnly : Bool
  isSession : Bool
  isForceExpired : Bool
  domainIsIPAddress : Bool
  deriving DecidableEq

namespace ParsedCookie

/-- The cookie at the beginning of parsing. -/
def init (currentTime : ℚ) : ParsedCookie where
  name := []
  value := []
  domain := []
  protocol := []
  path := []
  expiry := -1
  creationTime := currentTime
  lastAccessed := currentTime
  isSecure := false
  isHttpOnly := false
  isSession := true
  isForceExpired := false
  domainIsIPAddress := false

def setDomain (p : Platform) (c : ParsedCookie) (domain : Text) (domainIsIPAddress : Bool) :
    ParsedCookie :=
  { c with domain := p.lower domain, domainIsIPAddress }

/-- A date that cannot be read leaves a session cookie. -/
def setExpiry (p : Platform) (c : ParsedCookie) (expiry : Text) : ParsedCookie :=
  if c.expiry ≠ -1 ∨ expiry = [] then c
  else
    let date := p.curlGetdate expiry
    { c with expiry := date, isSession := decide (date = -1) }

def isASCIIDigit (c : UInt16) : Bool := 48 ≤ c && c ≤ 57

def setMaxAge (p : Platform) (c : ParsedCookie) (maxAge : Text) (currentTime : ℚ) : ParsedCookie :=
  if maxAge = [] ∨ (maxAge.charAt 0 ≠ 45 ∧ isASCIIDigit (maxAge.charAt 0) = false) then c
  else
    match p.toIntStrict maxAge with
    | none => c
    | some value =>
      { c with expiry := if 0 < value then value + currentTime else 0, isSession := false }

/-- Session cookies do not expire. -/
def hasExpired (c : ParsedCookie) (currentTime : ℚ) : Bool :=
  !c.isSession && (c.isForceExpired || decide (c.expiry < currentTime))

def maxCookieLength : Nat := 4096

def isUnderSizeLimit (c : ParsedCookie) : Bool :=
  decide (c.value.length ≤ maxCookieLength) && decide (c.name.length ≤ maxCookieLength)

def toNameValuePair (c : ParsedCookie) : Text := c.name ++ text "=" ++ c.value

end ParsedCookie

/-! ## Scanning -/

def isCookieHeaderSeparator (c : UInt16) : Bool := c == 13 || c == 10

def isLightweightSpace (c : UInt16) : Bool := c == 32 || c == 9

/-- Move forward from `i` as long as the characters satisfy `p`, by at most `count` characters. -/
def skip (p : UInt16 → Bool) (s : Text) : Nat → Nat → Nat
  | i, 0 => i
  | i, count + 1 => if p (s.charAt i) then skip p s (i + 1) count else i

/-- Move forward over lightweight spaces up to `limit`. -/
def skipSpaces (s : Text) (i limit : Nat) : Nat := skip isLightweightSpace s i (limit - i)

/-- Move the end of a token backward over lightweight spaces, not before `start`. -/
def trimSpaces (s : Text) (start : Nat) : Nat → Nat
  | 0 => 0
  | i + 1 =>
    if start < i + 1 ∧ isLightweightSpace (s.charAt i) = true then trimSpaces s start i else i + 1

/-- The last character of a name whose last candidate is at `nameEnd`. -/
def trimName (s : Text) : Nat → Nat
  | 0 => 0
  | i + 1 => if isLightweightSpace (s.charAt (i + 1)) then trimName s i else i + 1

/-- The position of the first `=` and of the first `;` that is not quoted. -/
structure FirstPair where
  tokenEnd : Nat
  pairEnd : Nat
  foundEqual : Bool

/-- The loop over `[NAME "="] VALUE`; every step moves `pairEnd` forward. -/
def scanFirstPair (s : Text) (start stop : Nat) : Nat → FirstPair → FirstPair
  | 0, pair => pair
  | count + 1, pair =>
    if pair.pairEnd < stop ∧ s.charAt pair.pairEnd ≠ 59 then
      if s.charAt pair.pairEnd = 61 then
        scanFirstPair s start stop count
          (if pair.tokenEnd = start then ⟨pair.pairEnd, pair.pairEnd + 1, true⟩
          else { pair with pairEnd := pair.pairEnd + 1 })
      else
        let next :=
          if s.charAt pair.pairEnd = 34 then
            match s.find 34 (pair.pairEnd + 1) with
            | some second => if second ≤ stop then second + 1 else pair.pairEnd + 1
            | none => pair.pairEnd + 1
          else pair.pairEnd + 1
        scanFirstPair s start stop count { pair with pairEnd := next }
    else pair

/-- The loop over one attribute: the first `=` after its first character, and the end. -/
def scanPair (s : Text) (tokenStart : Nat) : Nat → Nat × Nat → Nat × Nat
  | 0, pair => pair
  | count + 1, (tokenEnd, pairEnd) =>
    if s.charAt pairEnd ≠ 59 then
      scanPair s tokenStart count
        (if tokenEnd = tokenStart ∧ s.charAt pairEnd = 61 then pairEnd else tokenEnd, pairEnd + 1)
    else (tokenEnd, pairEnd)

/-- `cookie.find(name, start, false) == start`. -/
def matchName (p : Platform) (s name : Text) (start : Nat) : Bool :=
  Text.startsWithIgnoringCase p.equalIgnoringCase (s.drop start) name

/-- Remove a pair of quotes around the text. -/
def unquote (s : Text) : Text :=
  if 1 < s.length ∧ s.charAt 0 = 34 ∧ s.charAt (s.length - 1) = 34 then
    s.substring 1 (s.length - 2)
  else s

/-! ## The parser -/

structure CookieParser where
  defaultCookieURL : URL
  defaultCookieHost : Text
  defaultDomainIsIPAddress : Bool

namespace CookieParser

/-- The domain with a dot at the beginning. -/
def realDomain (domain : Text) : Text :=
  if domain.charAt 0 = 46 then domain else text "." ++ domain

def new (url : URL) : CookieParser where
  defaultCookieURL := url
  defaultCookieHost := realDomain url.host
  defaultDomainIsIPAddress := false

/-- The `Domain` attribute: the domain must have an embedded dot and be a part of the host. -/
def parseDomain (p : Platform) (parser : CookieParser) (c : ParsedCookie) (value : Text) :
    Option ParsedCookie :=
  let domain := unquote value
  match domain.find 46 1 with
  | none => none
  | some _ =>
    if parser.defaultDomainIsIPAddress ∨ Text.endsWithIgnoringCase p.equalIgnoringCase
        parser.defaultCookieHost (realDomain domain) = true then
      some (c.setDomain p (realDomain domain) false)
    else none

/-- One attribute: `length` characters at `start` are its name, and `value` follows the `=`. -/
def parseAttribute (p : Platform) (parser : CookieParser) (c : ParsedCookie) (s : Text)
    (start length : Nat) (value : Text) (currentTime : ℚ) : Option ParsedCookie :=
  let named (name : String) : Bool :=
    decide ((text name).length ≤ length) && matchName p s (text name) start
  let first := s.charAt start
  if first = 80 ∨ first = 112 then
    some (if named "Path" then { c with path := p.decodeURLEscapeSequences value } else c)
  else if first = 68 ∨ first = 100 then
    if named "Domain" then parser.parseDomain p c value else some c
  else if first = 69 ∨ first = 101 then
    some (if named "Expires" then c.setExpiry p value else c)
  else if first = 77 ∨ first = 109 then
    some (if named "Max-age" then c.setMaxAge p value currentTime else c)
  else if first = 86 ∨ first = 118 then
    if named "Version" ∧ p.toInt (unquote value) ≠ 1 then none else some c
  else if first = 83 ∨ first = 115 then
    some (if named "Secure" then { c with isSecure := true } else c)
  else if first = 72 ∨ first = 104 then
    some (if named "HttpOnly" then { c with isHttpOnly := true } else c)
  else some c

/-- The loop over the attributes; `pairEnd` is the position of a `;` and moves forward. -/
def parseAttributes (p : Platform) (parser : CookieParser) (s : Text) (stop : Nat)
    (currentTime : ℚ) : Nat → ParsedCookie → Nat → Option ParsedCookie
  | 0, c, _ => some c
  | count + 1, c, pairEnd =>
    if pairEnd < stop then
      let tokenStart := skipSpaces s (pairEnd + 1) stop
      let (tokenEnd, pairEnd) := scanPair s tokenStart (stop - tokenStart) (tokenStart, tokenStart)
      let parsed :=
        if tokenStart ≠ tokenEnd then
          let valueStart := skipSpaces s (tokenEnd + 1) pairEnd
          let valueEnd := trimSpaces s valueStart pairEnd
          parser.parseAttribute p c s tokenStart (tokenEnd - tokenStart)
            (s.substring valueStart (valueEnd - valueStart)) currentTime
        else parser.parseAttribute p c s tokenStart (pairEnd - tokenStart) [] currentTime
      parsed.bind fun c => parseAttributes p parser s stop currentTime count c pairEnd
    else some c

/-- The directory of the URL; the difference of the positions is unsigned. -/
def defaultPath (p : Platform) (parser : CookieParser) : Text :=
  let url := parser.defaultCookieURL
  let path := url.string.substring url.pathStart
    ((url.pathAfterLastSlash + 2 ^ 32 - url.pathStart - 1) % 2 ^ 32)
  p.decodeURLEscapeSequences (if path = [] then text "/" else path)

/-- Default values for what was not provided. -/
def addDefaults (p : Platform) (parser : CookieParser) (c : ParsedCookie) : ParsedCookie :=
  let c := if c.domain = [] then
      c.setDomain p parser.defaultCookieHost parser.defaultDomainIsIPAddress
    else c
  if c.path.charAt 0 ≠ 47 then { c with path := parser.defaultPath p } else c

/-- The checks and defaults after the attributes have been read. -/
def complete (p : Platform) (parser : CookieParser) (c : ParsedCookie) : Option ParsedCookie :=
  if c.isUnderSizeLimit = false then none
  else if p.cookiePolicyForURLAndName parser.defaultCookieURL (parser.addDefaults p c).name = .never
  then none
  else some (parser.addDefaults p c)

/-- Read the cookie between two positions of a header. -/
def parseOneCookie (p : Platform) (parser : CookieParser) (s : Text) (start stop : Nat)
    (currentTime : ℚ) : Option ParsedCookie :=
  let res := { ParsedCookie.init currentTime with protocol := parser.defaultCookieURL.protocol }
  let pair := scanFirstPair s start stop (stop - start) ⟨start, start, false⟩
  let hasName : Bool := decide (pair.tokenEnd ≠ start)
  let nameEnd := trimName s (pair.tokenEnd - 1)
  let nameStart := skipSpaces s start nameEnd
  let valueStart := skipSpaces s (if hasName then pair.tokenEnd + 1 else pair.tokenEnd) pair.pairEnd
  let valueEnd := trimSpaces s valueStart pair.pairEnd
  let value := s.substring valueStart (valueEnd - valueStart)
  let attributes (c : ParsedCookie) : Option ParsedCookie :=
    (parser.parseAttributes p s stop currentTime (stop - pair.pairEnd) c pair.pairEnd).bind
      (parser.complete p)
  if hasName then
    if nameEnd + 1 ≤ nameStart then none
    else attributes { res with name := s.substring nameStart (nameEnd + 1 - start), value }
  else if pair.foundEqual then none
  else attributes { res with name := value }

/-- Read the cookie of a whole string; `length() - 1` is unsigned. -/
def parseOneCookieString (p : Platform) (parser : CookieParser) (cookie : Text) (currentTime : ℚ) :
    Option ParsedCookie :=
  parser.parseOneCookie p cookie 0
    (if cookie = [] then 2 ^ 32 - 1 else cookie.length - 1) currentTime

/-- The loop over the lines of a header; every step moves `cookieEnd` forward. -/
def parseLines (p : Platform) (parser : CookieParser) (s : Text) (currentTime : ℚ) :
    Nat → Nat → List ParsedCookie
  | 0, _ => []
  | count + 1, cookieEnd =>
    if cookieEnd ≤ s.length then
      let lineEnd :=
        skip (fun c => !isCookieHeaderSeparator c) s cookieEnd (s.length + 1 - cookieEnd)
      if cookieEnd = lineEnd then parseLines p parser s currentTime count (lineEnd + 1)
      else
        let next := if lineEnd < s.length ∧ isCookieHeaderSeparator (s.charAt lineEnd) = true then
            lineEnd + 1
          else lineEnd
        (parser.parseOneCookie p s cookieEnd (next - 1) currentTime).toList ++
          parseLines p parser s currentTime count next
    else []

/-- The cookies of a header. -/
def parse (p : Platform) (parser : CookieParser) (cookies : Text) (currentTime : ℚ) :
    List ParsedCookie :=
  if cookies = [] then [] else parser.parseLines p cookies currentTime (cookies.length + 1) 0

/-! ## What the attributes and the defaults change -/

section Attributes

variable {p : Platform} {parser : CookieParser} {s : Text} {time : ℚ} {c c' c'' : ParsedCookie}

/-- The scheme, the name and the value are the same. -/
structure SamePair (c c' : ParsedCookie) : Prop where
  protocol : c'.protocol = c.protocol
  name : c'.name = c.name
  value : c'.value = c.value

theorem SamePair.trans (h : SamePair c c') (h' : SamePair c' c'') : SamePair c c'' :=
  ⟨h'.protocol.trans h.protocol, h'.name.trans h.name, h'.value.trans h.value⟩

theorem setExpiry_same (value : Text) :
    SamePair c (c.setExpiry p value) ∧ (c.setExpiry p value).domain = c.domain := by
  unfold ParsedCookie.setExpiry
  split_ifs <;> exact ⟨⟨rfl, rfl, rfl⟩, rfl⟩

theorem setMaxAge_same (value : Text) :
    SamePair c (c.setMaxAge p value time) ∧ (c.setMaxAge p value time).domain = c.domain := by
  unfold ParsedCookie.setMaxAge
  split_ifs
  · exact ⟨⟨rfl, rfl, rfl⟩, rfl⟩
  · split <;> exact ⟨⟨rfl, rfl, rfl⟩, rfl⟩

theorem parseDomain_same {value : Text} (eq : parser.parseDomain p c value = some c') :
    SamePair c c' := by
  unfold parseDomain at eq
  dsimp only at eq
  split at eq
  · cases eq
  · split_ifs at eq
    cases eq
    exact ⟨rfl, rfl, rfl⟩

/-- Only `Domain` changes the domain. -/
theorem parseAttribute_spec {start length : Nat} {value : Text}
    (eq : parser.parseAttribute p c s start length value time = some c') :
    SamePair c c' ∧ (c'.domain = c.domain ∨ parser.parseDomain p c value = some c') := by
  unfold parseAttribute at eq
  dsimp only at eq
  split_ifs at eq
  all_goals first
    | exact ⟨parseDomain_same eq, .inr eq⟩
    | cases eq; first
      | exact ⟨⟨rfl, rfl, rfl⟩, .inl rfl⟩
      | exact (setExpiry_same value).imp_right .inl
      | exact (setMaxAge_same value).imp_right .inl

/-- What is done with one attribute. -/
def parsePair (p : Platform) (parser : CookieParser) (c : ParsedCookie) (s : Text)
    (tokenStart tokenEnd pairEnd : Nat) (time : ℚ) : Option ParsedCookie :=
  if tokenStart ≠ tokenEnd then
    parser.parseAttribute p c s tokenStart (tokenEnd - tokenStart)
      (s.substring (skipSpaces s (tokenEnd + 1) pairEnd)
        (trimSpaces s (skipSpaces s (tokenEnd + 1) pairEnd) pairEnd -
          skipSpaces s (tokenEnd + 1) pairEnd)) time
  else parser.parseAttribute p c s tokenStart (pairEnd - tokenStart) [] time

theorem parseAttributes_succ {count stop pairEnd tokenStart : Nat} {pair : Nat × Nat}
    (lt : pairEnd < stop) (start_eq : skipSpaces s (pairEnd + 1) stop = tokenStart)
    (pair_eq : scanPair s tokenStart (stop - tokenStart) (tokenStart, tokenStart) = pair) :
    parser.parseAttributes p s stop time (count + 1) c pairEnd =
      (parser.parsePair p c s tokenStart pair.1 pair.2 time).bind fun c =>
        parser.parseAttributes p s stop time count c pair.2 := by
  rw [parseAttributes, if_pos lt, start_eq]
  dsimp only
  rw [pair_eq]
  rfl

theorem parsePair_same {tokenStart tokenEnd pairEnd : Nat}
    (eq : parser.parsePair p c s tokenStart tokenEnd pairEnd time = some c') : SamePair c c' := by
  unfold parsePair at eq
  split_ifs at eq <;> exact (parseAttribute_spec eq).1

/-- What every attribute keeps, the loop over the attributes keeps. -/
theorem parseAttributes_keeps {I : ParsedCookie → Prop} {stop count pairEnd : Nat}
    (keeps : ∀ {c c' : ParsedCookie} {start : Nat} {pair : Nat × Nat},
      scanPair s start (stop - start) (start, start) = pair →
      parser.parsePair p c s start pair.1 pair.2 time = some c' → I c → I c')
    (init : I c) (eq : parser.parseAttributes p s stop time count c pairEnd = some c') : I c' := by
  induction count generalizing c pairEnd with
  | zero =>
    cases eq
    exact init
  | succ count ih =>
    by_cases lt : pairEnd < stop
    · rw [parseAttributes_succ lt rfl rfl, Option.bind_eq_some_iff] at eq
      obtain ⟨c₁, first, others⟩ := eq
      exact ih (keeps rfl first init) others
    · rw [parseAttributes, if_neg lt] at eq
      cases eq
      exact init

theorem addDefaults_same (c : ParsedCookie) : SamePair c (parser.addDefaults p c) := by
  unfold addDefaults
  dsimp only
  split_ifs <;> exact ⟨rfl, rfl, rfl⟩

theorem complete_eq_some (eq : parser.complete p c = some c') :
    c' = parser.addDefaults p c := by
  unfold complete at eq
  split_ifs at eq
  exact (Option.some.inj eq).symm

theorem attributes_same {stop count pairEnd : Nat}
    (eq : (parser.parseAttributes p s stop time count c pairEnd).bind (parser.complete p) =
      some c') : SamePair c c' := by
  obtain ⟨c₁, attributes, completed⟩ := Option.bind_eq_some_iff.mp eq
  have same : SamePair c c₁ :=
    parseAttributes_keeps (fun _ first same => same.trans (parsePair_same first))
      ⟨rfl, rfl, rfl⟩ attributes
  rw [complete_eq_some completed]
  exact same.trans (addDefaults_same c₁)

end Attributes

end CookieParser

end Odyssey.Network.Cookies
