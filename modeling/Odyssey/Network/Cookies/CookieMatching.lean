import Mathlib.Algebra.Order.Ring.Unbundled.Rat
import Mathlib.Data.List.Infix
import Odyssey.Network.Cookies.CookieLookup

/-!
# Exact lookup

`domainMatches` and `pathMatches` are what a lookup should test. `getRawCookies_exact_iff` says when
a lookup in a reachable store returns exactly the cookies that match, each once and in order.
-/
namespace Odyssey.Network.Cookies

open WTF Lib CookieMap

/-! ## What should match -/

/-- The domain without the leading dot is the host, or a suffix of it at a label boundary. -/
def domainMatches (domain host : Text) : Prop :=
  let name := if domain.charAt 0 = 46 then domain.drop 1 else domain
  name = host ∨ (46 :: name) <:+ host

/-- Path matching of RFC 6265, section 5.1.4. -/
def pathMatches (cookiePath path : Text) : Prop :=
  cookiePath = path ∨
    (cookiePath <+: path ∧ (cookiePath.getLast? = some 47 ∨ path[cookiePath.length]? = some 47))

instance (domain host : Text) : Decidable (domainMatches domain host) :=
  inferInstanceAs (Decidable (_ ∨ _))

instance (cookiePath path : Text) : Decidable (pathMatches cookiePath path) :=
  inferInstanceAs (Decidable (_ ∨ _))

/-! ## Labels and texts -/

/-- The labels of a domain, without its leading dot. -/
def labels (domain : Text) : List Text :=
  (if domain.charAt 0 = 46 then domain.drop 1 else domain).splitOn 46

/-- The labels under which a cookie is filed: empty ones are left out. -/
def filedLabels (c : ParsedCookie) : List Text :=
  if c.domainIsIPAddress then [c.domain] else (c.domain.splitOn 46).filter (· ≠ [])

/-- The path with a slash at its end. -/
def withSlash (path : Text) : Text := if path.getLast? = some 47 then path else path ++ [47]

/-- The path of the cookie is the path or, with a slash at its end, a beginning of it, up to
case. -/
def PathUpToCase (p : Platform) (cookiePath path : Text) : Prop :=
  p.equalIgnoringCase cookiePath path = true ∨
    ∃ beginning, beginning <+: path ∧
      p.equalIgnoringCase beginning (withSlash cookiePath) = true

/-- The labels and texts for which a cookie is looked up as it should. `host` is in lower case. -/
structure LookedUp (p : Platform) (host path : Text) (c : ParsedCookie) : Prop where
  /-- A host that ends with the labels under which the cookie is filed ends with all its labels, and
  a path that begins with that of the cookie up to case begins with it. -/
  found : filedLabels c <:+ host.splitOn 46 → PathUpToCase p c.path path →
    labels c.domain <:+ host.splitOn 46 ∧ (c.path = path ∨ withSlash c.path <+: path)
  /-- A host that ends with all labels of the cookie ends with those under which it is filed. -/
  filed : labels c.domain <:+ host.splitOn 46 → c.path = path ∨ withSlash c.path <+: path →
    filedLabels c <:+ host.splitOn 46

/-- What a lookup uses of the comparison without case. -/
structure Platform.ComparesTexts (p : Platform) : Prop where
  refl : ∀ s, p.equalIgnoringCase s s = true
  symm : ∀ s t, p.equalIgnoringCase s t = true → p.equalIgnoringCase t s = true
  length : ∀ s t, p.equalIgnoringCase s t = true → s.length = t.length

theorem asciiPlatform_comparesTexts : asciiPlatform.ComparesTexts where
  refl s := by simp [asciiPlatform]
  symm s t h := by
    rw [asciiPlatform, beq_iff_eq] at h ⊢
    exact h.symm
  length s t h := by
    rw [asciiPlatform, beq_iff_eq] at h
    simpa using congrArg List.length h

theorem domainMatches_iff {domain host : Text} :
    domainMatches domain host ↔ labels domain <:+ host.splitOn 46 :=
  Text.splitOn_isSuffix_iff.symm

theorem pathMatches_iff {cookiePath path : Text} :
    pathMatches cookiePath path ↔ cookiePath = path ∨ withSlash cookiePath <+: path := by
  rw [pathMatches, withSlash]
  split_ifs with hlast
  · simp [hlast]
  · simp only [hlast, false_or]
    refine or_congr_right ⟨?_, ?_⟩
    · rintro ⟨⟨rest, rfl⟩, hnext⟩
      rw [List.getElem?_append_right (Nat.le_refl _), Nat.sub_self] at hnext
      cases rest with
      | nil => cases hnext
      | cons r rest =>
        cases hnext
        exact ⟨rest, by rw [List.append_assoc]; rfl⟩
    · rintro ⟨rest, rfl⟩
      refine ⟨⟨47 :: rest, by simp⟩, ?_⟩
      simp

theorem startsWithIgnoringCase_iff {p : Platform} (laws : p.ComparesTexts) {path part : Text} :
    Text.startsWithIgnoringCase p.equalIgnoringCase path part = true ↔
      ∃ beginning, beginning <+: path ∧ p.equalIgnoringCase beginning part = true := by
  rw [Text.startsWithIgnoringCase, Bool.and_eq_true, decide_eq_true_eq]
  constructor
  · rintro ⟨-, equal⟩
    exact ⟨_, List.take_prefix _ _, equal⟩
  · rintro ⟨beginning, isPrefix, equal⟩
    rw [← laws.length _ _ equal, ← List.prefix_iff_eq_take.mp isPrefix]
    exact ⟨isPrefix.length_le, equal⟩

/-- The test of the code is the comparison of RFC 6265 up to case. -/
theorem matchesPath_iff {p : Platform} (laws : p.ComparesTexts) {cookiePath path : Text} :
    CookieManager.matchesPath p cookiePath path = true ↔ PathUpToCase p cookiePath path := by
  rw [CookieManager.matchesPath, PathUpToCase]
  cases equal : p.equalIgnoringCase cookiePath path with
  | true =>
    rw [Bool.not_true, Bool.false_and, if_neg Bool.false_ne_true, startsWithIgnoringCase_iff laws]
    exact iff_of_true ⟨path, List.prefix_rfl, laws.symm _ _ equal⟩ (.inl rfl)
  | false =>
    rw [startsWithIgnoringCase_iff laws, withSlash, Bool.not_false, Bool.true_and]
    simp only [bne_iff_ne, ne_eq, ite_not, Bool.false_eq_true, false_or]
    rfl

theorem PathUpToCase.of_matches {p : Platform} (laws : p.ComparesTexts) {cookiePath path : Text}
    (h : cookiePath = path ∨ withSlash cookiePath <+: path) :
    PathUpToCase p cookiePath path := by
  rcases h with rfl | h
  · exact .inl (laws.refl _)
  · exact .inr ⟨_, h, laws.refl _⟩

/-- Cookies are sorted by decreasing length of the path, then by increasing creation time. -/
def inOrder (a b : ParsedCookie) : Prop :=
  b.path.length < a.path.length ∨
    (a.path.length = b.path.length ∧ a.creationTime ≤ b.creationTime)

theorem cookieSorter_eq_false {a b : ParsedCookie} : cookieSorter b a = false ↔ inOrder a b := by
  rw [cookieSorter, inOrder]
  split
  · rename_i h
    rw [decide_eq_false_iff_not, not_lt]
    exact ⟨fun hle => .inr ⟨h.symm, hle⟩, fun hor => hor.elim (fun hlt => by omega) (·.2)⟩
  · rename_i h
    rw [decide_eq_false_iff_not, not_lt]
    exact ⟨fun hle => .inl (by omega), fun hor => hor.elim (fun hlt => by omega)
      fun heq => absurd heq.1.symm h⟩

theorem inOrder_total (a b : ParsedCookie) : inOrder a b ∨ inOrder b a := by
  rcases Nat.lt_trichotomy a.path.length b.path.length with h | h | h
  · exact .inr (.inl h)
  · rcases le_total a.creationTime b.creationTime with hle | hle
    · exact .inl (.inr ⟨h, hle⟩)
    · exact .inr (.inr ⟨h.symm, hle⟩)
  · exact .inl (.inl h)

theorem inOrder_trans {a b c : ParsedCookie} (h : inOrder a b) (h' : inOrder b c) :
    inOrder a c := by
  rcases h with h | ⟨h, hle⟩
  · rcases h' with h' | ⟨h', -⟩
    · exact .inl (by omega)
    · exact .inl (by omega)
  · rcases h' with h' | ⟨h', hle'⟩
    · exact .inl (by omega)
    · exact .inr ⟨h.trans h', hle.trans hle'⟩

namespace CookieManager

variable {p : Platform} {m : CookieManager} {url : URL} {filter : CookieFilter} {currentTime : ℚ}

/-! ## What is returned -/

/-- The cookies of the scheme of a URL. -/
def cookiesFor (m : CookieManager) (url : URL) : List ParsedCookie :=
  (m.tree (schemeMap url.protocol)).items (·.cookieVector)

/-- The labels of the host of a request, from the right. -/
def hostLabels (p : Platform) (url : URL) : List Text := ((p.lower url.host).split 46 true).reverse

def isSecureScheme (url : URL) : Bool := url.protocol == text "https" || url.protocol == text "wss"

/-- The cookie can be sent for the request, as far as expiry and flags are concerned. -/
def isSendable (url : URL) (filter : CookieFilter) (currentTime : ℚ) (c : ParsedCookie) : Bool :=
  !c.hasExpired currentTime && isAllowed (isSecureScheme url) filter c

/-- The test that a lookup makes for the domain and the path. -/
def isFound (p : Platform) (url : URL) (c : ParsedCookie) : Bool :=
  decide (domainLabels c <+: hostLabels p url) && matchesPath p c.path url.path

theorem searchTree_along_perm {tree : CookieTree} (h : IsFiled tree) (labels : List Text) :
    (searchTree false tree labels currentTime).1.Perm
      ((tree.items (·.cookieVector)).filter fun c =>
        !c.hasExpired currentTime && decide (domainLabels c <+: labels)) := by
  have hplaced : tree.Placed
      (fun map => map.cookieVector.filter fun c => !c.hasExpired currentTime) domainLabels [] :=
    fun path map hmap c hc => h.placed hmap c (List.mem_filter.mp hc).1
  have hperm := Trie.along_perm hplaced h.proper labels
  simp only [searchTree, getAllCookies_fst, Bool.false_eq_true, if_false]
  refine hperm.trans ?_
  rw [Trie.items, ← List.filter_flatMap, List.filter_filter, ← Trie.items]
  simp [Bool.and_comm]

theorem lookup_eq_none {protocol : Text} (h : m.Inv) (hhttp : protocol ≠ text "http")
    (hws : protocol ≠ text "ws") : m.managerMap.lookup protocol = none := by
  rw [← Option.not_isSome_iff_eq_none]
  intro hsome
  rcases h.scheme protocol hsome with heq | heq
  · exact hhttp heq
  · exact hws heq

/-- There are no maps for local files. -/
theorem searchProtocols_local (h : m.Inv) (everywhere : Bool) (labels : List Text)
    (chosen : ParsedCookie → Bool) (currentTime : ℚ) :
    m.searchProtocols everywhere labels chosen currentTime
      (if m.shouldDumpAllCookies then [text "file", text "local"] else []) = ([], m) := by
  split
  · rw [searchProtocols, lookup_eq_none h (by decide) (by decide)]
    dsimp only
    rw [searchProtocols, lookup_eq_none h (by decide) (by decide)]
    rfl
  · rfl

theorem searchProtocols_cons_local (h : m.Inv) {protocol : Text} {tree : CookieTree}
    (hlookup : m.managerMap.lookup protocol = some tree) (everywhere : Bool) (labels : List Text)
    (chosen : ParsedCookie → Bool) :
    (m.searchProtocols everywhere labels chosen currentTime
      (protocol :: if m.shouldDumpAllCookies then [text "file", text "local"] else [])).1 =
      (searchTree everywhere tree labels currentTime).1 := by
  have hlocal := searchProtocols_local (h.searchTree hlookup everywhere labels chosen currentTime
    (searchTree everywhere tree labels currentTime).2.2) everywhere labels chosen currentTime
  rw [searchProtocols, hlookup]
  dsimp only
  refine Eq.trans ?_ (List.append_nil _)
  exact congrArg (_ ++ ·) (congrArg Prod.fst hlocal)

theorem targetProtocol_eq (h : m.Inv) (hvalid : url.isValid = true)
    (hscheme : url.protocol ∈ webSchemes) :
    m.targetProtocol url = if (m.managerMap.lookup (schemeMap url.protocol)).isSome then
      some (schemeMap url.protocol) else none := by
  have hhttps := lookup_eq_none h (show text "https" ≠ text "http" by decide) (by decide)
  have hwss := lookup_eq_none h (show text "wss" ≠ text "http" by decide) (by decide)
  have hmap : schemeMap (text "http") = text "http" ∧ schemeMap (text "https") = text "http" ∧
    schemeMap (text "ws") = text "ws" ∧ schemeMap (text "wss") = text "ws" := by decide
  have hne : text "http" ≠ text "https" ∧ text "http" ≠ text "wss" ∧ text "ws" ≠ text "https" ∧
    text "ws" ≠ text "wss" ∧ text "wss" ≠ text "https" ∧ text "https" ≠ text "wss" := by decide
  obtain ⟨string, isValid, protocol, host, path, pathStart, pathAfterLastSlash⟩ := url
  simp only [webSchemes, List.mem_cons, List.not_mem_nil, or_false] at hvalid hscheme
  rw [targetProtocol]
  rcases hscheme with rfl | rfl | rfl | rfl
  all_goals
    simp only [URL.protocolIs, hvalid, hhttps, hwss, hmap, hne, Bool.true_and, beq_iff_eq,
      false_and, true_and, if_false, Option.isSome_none, Bool.false_eq_true]
    rfl

/-- A lookup returns the cookies that are found, each once. -/
theorem getRawCookies_perm (p : Platform) (h : m.Inv) (hvalid : url.isValid = true)
    (hscheme : url.protocol ∈ webSchemes) (filter : CookieFilter) (currentTime : ℚ) :
    (m.getRawCookies p url filter currentTime).1.Perm
      (((m.cookiesFor url).filter fun c =>
        isSendable url filter currentTime c && isFound p url c).map
          fun c => { c with lastAccessed := currentTime }) := by
  obtain ⟨-, hignore⟩ := schemeMap_of_mem hscheme
  have hsecure : (url.protocolIs (text "https") || url.protocolIs (text "wss") || false) =
      isSecureScheme url := by
    simp [URL.protocolIs, hvalid, isSecureScheme]
  have hlabels : ((p.lower url.host).split 46 true).reverse = hostLabels p url := rfl
  rw [getRawCookies]
  simp only [hignore, Bool.false_and, Bool.false_eq_true, if_false, hsecure, hlabels]
  refine (List.perm_insertionSort _ _).trans ?_
  have htouch (cookies : List ParsedCookie) :
      (cookies.filter (isChosen p url.path (isSecureScheme url) filter)).map
        (touch (isChosen p url.path (isSecureScheme url) filter) currentTime) =
      (cookies.filter (isChosen p url.path (isSecureScheme url) filter)).map
        fun c => { c with lastAccessed := currentTime } := by
    refine List.map_congr_left fun c hc => ?_
    rw [touch, if_pos (List.mem_filter.mp hc).2]
  rw [htouch]
  refine List.Perm.map _ ?_
  rw [targetProtocol_eq h hvalid hscheme]
  cases hlookup : m.managerMap.lookup (schemeMap url.protocol) with
  | none =>
    have htree : m.cookiesFor url = [] := by
      rw [cookiesFor, CookieManager.tree, hlookup, Option.getD_none, Trie.items_leaf]
      rfl
    simp only [Option.isSome_none, Bool.false_eq_true, if_false, Option.toList_none,
      List.nil_append, searchProtocols_local h, htree]
    rfl
  | some tree =>
    have htree : m.cookiesFor url = tree.items (·.cookieVector) := by
      rw [cookiesFor, CookieManager.tree, hlookup, Option.getD_some]
    simp only [Option.isSome_some, if_true, Option.toList_some, List.singleton_append]
    rw [searchProtocols_cons_local h hlookup, htree]
    refine ((searchTree_along_perm (h.filed _ _ hlookup) _).filter _).trans ?_
    rw [List.filter_filter]
    refine List.Perm.of_eq (List.filter_congr fun c _ => ?_)
    simp only [isChosen, isSendable, isFound]
    ac_rfl

theorem getRawCookies_pairwise :
    (m.getRawCookies p url filter currentTime).1.Pairwise inOrder := by
  have htotal : Std.Total fun a b : ParsedCookie => cookieSorter b a = false :=
    ⟨fun a b => (inOrder_total a b).imp cookieSorter_eq_false.mpr cookieSorter_eq_false.mpr⟩
  have htrans : IsTrans ParsedCookie fun a b => cookieSorter b a = false :=
    ⟨fun a b c hab hbc => cookieSorter_eq_false.mpr
      (inOrder_trans (cookieSorter_eq_false.mp hab) (cookieSorter_eq_false.mp hbc))⟩
  rw [getRawCookies]
  dsimp only
  split
  · exact .nil
  · exact (List.pairwise_insertionSort _ _).imp cookieSorter_eq_false.mp

variable {c : ParsedCookie}

/-- The access time does not matter for tests that give the same results for some cookies. -/
theorem eq_of_perm_filter {cookies : List ParsedCookie} {q q' : ParsedCookie → Bool}
    (hq : ∀ c, q { c with lastAccessed := currentTime } = q c)
    (hq' : ∀ c, q' { c with lastAccessed := currentTime } = q' c)
    (hperm : ((cookies.filter q).map fun c => { c with lastAccessed := currentTime }).Perm
      ((cookies.filter q').map fun c => { c with lastAccessed := currentTime }))
    (hc : c ∈ cookies) : q c = q' c := by
  have himp {r r' : ParsedCookie → Bool}
      (hr' : ∀ c, r' { c with lastAccessed := currentTime } = r' c)
      (hsubset : ((cookies.filter r).map fun c => { c with lastAccessed := currentTime }) ⊆
        (cookies.filter r').map fun c => { c with lastAccessed := currentTime })
      (htrue : r c = true) : r' c = true := by
    obtain ⟨c', hc', heq⟩ := List.mem_map.mp
      (hsubset (List.mem_map_of_mem (List.mem_filter.mpr ⟨hc, htrue⟩)))
    rw [← hr', ← heq, hr']
    exact (List.mem_filter.mp hc').2
  exact Bool.eq_iff_iff.mpr ⟨himp hq' hperm.subset, himp hq hperm.symm.subset⟩

theorem domainLabels_isPrefix_iff :
    domainLabels c <+: hostLabels p url ↔ filedLabels c <:+ (p.lower url.host).splitOn 46 := by
  have hfiled : domainLabels c = (filedLabels c).reverse := by
    rw [domainLabels, filedLabels]
    split_ifs
    · rfl
    · refine congrArg List.reverse (List.filter_congr fun label _ => ?_)
      cases label <;> rfl
  rw [hfiled]
  exact List.reverse_prefix

/-- What the lookup tests, on labels and texts. -/
theorem isFound_iff (laws : p.ComparesTexts) :
    isFound p url c = true ↔ filedLabels c <:+ (p.lower url.host).splitOn 46 ∧
      PathUpToCase p c.path url.path := by
  rw [isFound, Bool.and_eq_true, decide_eq_true_eq, domainLabels_isPrefix_iff,
    matchesPath_iff laws]

/-- A lookup in a reachable store is exact if and only if the labels and paths of the cookies that
can be sent are such that leaving out empty labels and case makes no difference. -/
theorem getRawCookies_exact_iff (laws : p.ComparesTexts) (h : Reachable p m)
    (hvalid : url.isValid = true) (hscheme : url.protocol ∈ webSchemes) (filter : CookieFilter)
    (currentTime : ℚ) :
    ((m.getRawCookies p url filter currentTime).1.Pairwise inOrder ∧
      (m.getRawCookies p url filter currentTime).1.Perm
        (((m.cookiesFor url).filter fun c => isSendable url filter currentTime c &&
          decide (domainMatches c.domain (p.lower url.host) ∧ pathMatches c.path url.path)).map
            fun c => { c with lastAccessed := currentTime })) ↔
    ∀ c ∈ m.cookiesFor url, isSendable url filter currentTime c = true →
      LookedUp p (p.lower url.host) url.path c := by
  have hperm := getRawCookies_perm p h.inv hvalid hscheme filter currentTime
  have hagree (c : ParsedCookie) : LookedUp p (p.lower url.host) url.path c ↔
      (isFound p url c = true ↔
        domainMatches c.domain (p.lower url.host) ∧ pathMatches c.path url.path) := by
    rw [isFound_iff laws, domainMatches_iff, pathMatches_iff]
    constructor
    · rintro ⟨found, filed⟩
      exact ⟨fun ⟨hlabels, hpath⟩ => found hlabels hpath,
        fun ⟨hlabels, hpath⟩ => ⟨filed hlabels hpath, .of_matches laws hpath⟩⟩
    · intro hiff
      exact ⟨fun hlabels hpath => hiff.1 ⟨hlabels, hpath⟩,
        fun hlabels hpath => (hiff.2 ⟨hlabels, hpath⟩).1⟩
  simp only [hagree]
  constructor
  · rintro ⟨-, hexact⟩ c hc hsend
    have heq := eq_of_perm_filter (fun _ => rfl) (fun _ => rfl) (hperm.symm.trans hexact) hc
    rwa [hsend, Bool.true_and, Bool.true_and, Bool.eq_iff_iff, decide_eq_true_eq] at heq
  · intro hright
    refine ⟨getRawCookies_pairwise, hperm.trans (List.Perm.of_eq ?_)⟩
    refine congrArg _ (List.filter_congr fun c hc => ?_)
    cases hsend : isSendable url filter currentTime c with
    | false => rfl
    | true =>
      rw [Bool.true_and, Bool.true_and, Bool.eq_iff_iff, decide_eq_true_eq, hright c hc hsend]

/-! ## Domains without empty labels -/

/-- A domain with a dot and no empty labels behind it is filed under its labels. -/
theorem filedLabels_eq {name : Text} (hip : c.domainIsIPAddress = false)
    (hdomain : c.domain = 46 :: name) (hlabels : [] ∉ name.splitOn 46) :
    filedLabels c = labels c.domain := by
  have hcons : (46 :: name).splitOn 46 = [] :: name.splitOn 46 :=
    List.splitOnP_append_cons [] name (by simp)
  have hname : labels (46 :: name) = name.splitOn 46 := rfl
  rw [filedLabels, hip, hdomain, hname, if_neg Bool.false_ne_true, hcons,
    List.filter_cons_of_neg (by simp)]
  refine List.filter_eq_self.mpr fun label hlabel => ?_
  rw [decide_eq_true_eq]
  rintro rfl
  exact hlabels hlabel

/-- No beginning of the path is the path of the cookie up to case only. -/
structure SameCase (p : Platform) (cookiePath path : Text) : Prop where
  whole : p.equalIgnoringCase cookiePath path = true → cookiePath = path
  beginning : ∀ beginning, beginning <+: path →
    p.equalIgnoringCase beginning (withSlash cookiePath) = true → beginning = withSlash cookiePath

theorem matches_of_sameCase {cookiePath path : Text} (h : PathUpToCase p cookiePath path)
    (hcase : SameCase p cookiePath path) : cookiePath = path ∨ withSlash cookiePath <+: path := by
  rcases h with equal | ⟨beginning, isPrefix, equal⟩
  · exact .inl (hcase.whole equal)
  · exact .inr (hcase.beginning beginning isPrefix equal ▸ isPrefix)

theorem lookedUp_of_labels {host path : Text} (hlabels : filedLabels c = labels c.domain)
    (hcase : SameCase p c.path path) :
    LookedUp p host path c where
  found hfiled hpath := ⟨hlabels ▸ hfiled, matches_of_sameCase hpath hcase⟩
  filed hall _ := hlabels ▸ hall

/-- Whether a reachable store returns a cookie whose domain has no empty labels depends on that
cookie only, whatever other cookies there are. -/
theorem mem_getRawCookies_iff (laws : p.ComparesTexts) (h : Reachable p m)
    (hvalid : url.isValid = true) (hscheme : url.protocol ∈ webSchemes) {c : ParsedCookie}
    {name : Text} (hc : c ∈ m.cookiesFor url) (hip : c.domainIsIPAddress = false)
    (hdomain : c.domain = 46 :: name) (hlabels : [] ∉ name.splitOn 46)
    (hcase : SameCase p c.path url.path) :
    { c with lastAccessed := currentTime } ∈ (m.getRawCookies p url filter currentTime).1 ↔
      isSendable url filter currentTime c = true ∧
        domainMatches c.domain (p.lower url.host) ∧ pathMatches c.path url.path := by
  have hfound : isFound p url c = true ↔
      domainMatches c.domain (p.lower url.host) ∧ pathMatches c.path url.path := by
    rw [isFound_iff laws, domainMatches_iff, pathMatches_iff, filedLabels_eq hip hdomain hlabels]
    exact and_congr_right fun _ => ⟨(matches_of_sameCase · hcase), .of_matches laws⟩
  rw [(getRawCookies_perm p h.inv hvalid hscheme filter currentTime).mem_iff, List.mem_map,
    ← hfound]
  constructor
  · -- The cookie that is returned differs from this one in the access time at most.
    rintro ⟨c', hc', heq⟩
    have htests : isSendable url filter currentTime c' && isFound p url c' :=
      (List.mem_filter.mp hc').2
    change isSendable url filter currentTime { c' with lastAccessed := currentTime } &&
      isFound p url { c' with lastAccessed := currentTime } at htests
    rw [heq] at htests
    exact Bool.and_eq_true_iff.mp htests
  · intro htests
    exact ⟨c, List.mem_filter.mpr ⟨hc, Bool.and_eq_true_iff.mpr htests⟩, rfl⟩

/-! ## Cookies that are not looked up exactly -/

/-- The URL with the given host and path. -/
def httpURL (host path : String) : URL :=
  ⟨text "http://" ++ text host ++ text path, true, text "http", text host, text path,
    7 + host.length, 8 + host.length⟩

/-- A store with the cookie `a=1; path=/Foo` of a host. -/
def fooStore (host : String) : CookieManager :=
  (CookieManager.new.setCookies asciiPlatform (httpURL host "/") (text "a=1; path=/Foo")
    .withHttpOnlyCookies 0).1

theorem reachable_fooStore (host : String) : Reachable asciiPlatform (fooStore host) :=
  .setCookies (.start rfl) _ List.mem_cons_self _ _ _

theorem sameCase_foo : SameCase asciiPlatform (text "/Foo") (text "/Foo/x") where
  whole := by decide
  beginning beginning isPrefix := by
    rw [← List.mem_inits] at isPrefix
    revert beginning
    decide +kernel

theorem fooStore_cookies : ∀ c ∈ (fooStore "a.b").cookiesFor (httpURL "c.a.b" "/Foo/x"),
    c.domain = 46 :: text "a.b" ∧ c.path = text "/Foo" ∧ c.domainIsIPAddress = false := by
  decide +kernel

theorem mem_getRawCookies_fooStore : ∃ c ∈ (fooStore "a.b").cookiesFor (httpURL "c.a.b" "/Foo/x"),
    { c with lastAccessed := 1 } ∈ ((fooStore "a.b").getRawCookies asciiPlatform
      (httpURL "c.a.b" "/Foo/x") .noHttpOnlyCookie 1).1 := by
  have hstored : ∃ c ∈ (fooStore "a.b").cookiesFor (httpURL "c.a.b" "/Foo/x"),
      isSendable (httpURL "c.a.b" "/Foo/x") .noHttpOnlyCookie 1 c = true := by
    decide +kernel
  obtain ⟨c, hc, hsend⟩ := hstored
  obtain ⟨hdomain, hpath, hip⟩ := fooStore_cookies c hc
  refine ⟨c, hc, (mem_getRawCookies_iff asciiPlatform_comparesTexts (reachable_fooStore "a.b") rfl
    (by decide) hc hip hdomain (by decide) (hpath ▸ sameCase_foo)).mpr ⟨hsend, ?_⟩⟩
  rw [hdomain, hpath]
  decide

theorem getRawCookies_fooStore_exact :
    ((fooStore "a.b").getRawCookies asciiPlatform (httpURL "c.a.b" "/Foo/x") .noHttpOnlyCookie
        1).1.Pairwise inOrder ∧
      ((fooStore "a.b").getRawCookies asciiPlatform (httpURL "c.a.b" "/Foo/x") .noHttpOnlyCookie
        1).1.Perm
        ((((fooStore "a.b").cookiesFor (httpURL "c.a.b" "/Foo/x")).filter fun c =>
          isSendable (httpURL "c.a.b" "/Foo/x") .noHttpOnlyCookie 1 c &&
            decide (domainMatches c.domain (asciiPlatform.lower (text "c.a.b")) ∧
              pathMatches c.path (text "/Foo/x"))).map fun c => { c with lastAccessed := 1 }) := by
  refine (getRawCookies_exact_iff asciiPlatform_comparesTexts (reachable_fooStore "a.b") rfl
    (by decide) _ _).mpr fun c hc _ => ?_
  obtain ⟨hdomain, hpath, hip⟩ := fooStore_cookies c hc
  exact lookedUp_of_labels (filedLabels_eq hip hdomain (by decide)) (hpath ▸ sameCase_foo)

/-- Paths match although they differ in case, and a cookie of a host with an empty label is not
found for its own host. -/
theorem getRawCookies_not_exact :
    (((fooStore "a.b").getRawCookies asciiPlatform (httpURL "a.b" "/foo") .noHttpOnlyCookie
        1).1.map (·.path) = [text "/Foo"] ∧ ¬ pathMatches (text "/Foo") (text "/foo")) ∧
      ((fooStore "a.b.").cookiesFor (httpURL "a.b." "/Foo")).map (·.domain) = [text ".a.b."] ∧
      domainMatches (text ".a.b.") (text "a.b.") ∧
      ((fooStore "a.b.").getRawCookies asciiPlatform (httpURL "a.b." "/Foo") .noHttpOnlyCookie
        1).1 = [] := by
  decide +kernel

end CookieManager

end Odyssey.Network.Cookies
