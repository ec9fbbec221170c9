import Odyssey.Network.Cookies.CookieStore

/-!
# Looking up cookies

In every store that is filled over `http`, `https`, `ws` and `wss`, a cookie is in the map of its
domain. A lookup returns the unexpired cookies whose labels are the last labels of the host and
whose path is a prefix of the path of the request up to case. This is what RFC 6265 says unless
domains have empty labels or paths differ in case only.
-/
namespace Odyssey.Network.Cookies

open WTF Lib CookieMap

/-! ## The parser keeps the scheme -/

section

variable {p : Platform} {parser : CookieParser} {c : ParsedCookie} {s value : Text}
  {start stop : Nat} {currentTime : ℚ}

theorem parseOneCookie_protocol (h : parser.parseOneCookie p s start stop currentTime = some c) :
    c.protocol = parser.defaultCookieURL.protocol := by
  rw [CookieParser.parseOneCookie] at h
  dsimp only at h
  split_ifs at h <;> exact (CookieParser.attributes_same h).protocol

theorem parseLines_protocol {count cookieEnd : Nat}
    (h : c ∈ parser.parseLines p s currentTime count cookieEnd) :
    c.protocol = parser.defaultCookieURL.protocol := by
  induction count generalizing cookieEnd with
  | zero => cases h
  | succ count ih =>
    rw [CookieParser.parseLines] at h
    split at h
    · dsimp only at h
      split at h
      · exact ih h
      · rcases List.mem_append.mp h with h | h
        · exact parseOneCookie_protocol (Option.mem_toList.mp h)
        · exact ih h
    · cases h

theorem parse_protocol {url : URL} (h : c ∈ (CookieParser.new url).parse p value currentTime) :
    c.protocol = url.protocol := by
  rw [CookieParser.parse] at h
  split at h
  · cases h
  · exact parseLines_protocol h

end

/-! ## The invariant of the store -/

namespace CookieManager

/-- The schemes that can set cookies. -/
def webSchemes : List Text := [text "http", text "https", text "ws", text "wss"]

/-- The scheme that holds the cookies of a scheme. -/
def schemeMap (protocol : Text) : Text :=
  if protocol = text "https" then text "http"
  else if protocol = text "wss" then text "ws"
  else protocol

/-- Every cookie is in the map of its domain. -/
structure IsFiled (tree : CookieTree) : Prop where
  proper : tree.Proper
  placed : tree.Placed (fun map => map.cookieVector) domainLabels []

/-- The store only has the maps of `http` and `ws`, and the cookies are in the right places. -/
structure Inv (m : CookieManager) : Prop where
  scheme : ∀ protocol, (m.managerMap.lookup protocol).isSome = true →
    protocol = text "http" ∨ protocol = text "ws"
  filed : ∀ protocol tree, m.managerMap.lookup protocol = some tree → IsFiled tree

theorem isFiled_leaf : IsFiled ⟨.empty, []⟩ where
  proper := Trie.proper_leaf _
  placed := Trie.allNodes_leaf (by simp [CookieMap.empty])

variable {m : CookieManager} {c : ParsedCookie} {policy : BackingStoreRemovalPolicy}
  {filter : CookieFilter} {currentTime : ℚ}

theorem Inv.tree (h : m.Inv) (protocol : Text) : IsFiled (m.tree protocol) := by
  rw [CookieManager.tree]
  cases hlookup : m.managerMap.lookup protocol with
  | none => exact isFiled_leaf
  | some tree => exact h.filed protocol tree hlookup

theorem Inv.insert (h : m.Inv) {m' : CookieManager} {protocol : Text} {tree : CookieTree}
    (hm' : m'.managerMap = m.managerMap.insert protocol tree)
    (hprotocol : protocol = text "http" ∨ protocol = text "ws") (htree : IsFiled tree) :
    m'.Inv := by
  refine ⟨fun protocol' hsome => ?_, fun protocol' tree' hlookup => ?_⟩
  · rw [hm', AList.lookup_isSome, AList.mem_insert] at hsome
    rcases hsome with rfl | hmem
    · exact hprotocol
    · exact h.scheme _ (AList.lookup_isSome.mpr hmem)
  · by_cases heq : protocol' = protocol
    · subst heq
      rw [hm', AList.lookup_insert, Option.some.injEq] at hlookup
      exact hlookup ▸ htree
    · rw [hm', AList.lookup_insert_ne heq] at hlookup
      exact h.filed _ _ hlookup

theorem inv_of_managerMap_eq (h : m.Inv) {m' : CookieManager} (hm' : m'.managerMap = m.managerMap) :
    m'.Inv :=
  ⟨fun protocol hsome => h.scheme protocol (by rwa [hm'] at hsome),
    fun protocol tree hlookup => h.filed protocol tree (by rwa [hm'] at hlookup)⟩

theorem storageProtocol_eq (h : m.Inv) (protocol : Text) :
    m.storageProtocol protocol = schemeMap protocol := by
  rw [storageProtocol]
  split
  · rename_i hsome
    rcases h.scheme protocol hsome with rfl | rfl <;> decide
  · rfl

theorem schemeMap_of_mem {protocol : Text} (h : protocol ∈ webSchemes) :
    (schemeMap protocol = text "http" ∨ schemeMap protocol = text "ws") ∧
      shouldIgnoreScheme protocol = false := by
  rw [webSchemes] at h
  simp only [List.mem_cons, List.not_mem_nil, or_false] at h
  rcases h with rfl | rfl | rfl | rfl <;> decide

theorem mem_of_mapChange {live : Prop} {map : CookieMap} {treatment : Treatment}
    {cookies : List ParsedCookie} {count : CookieManager → CookieManager}
    {requests : List BackingStoreRequest} {evicted : Option ParsedCookie}
    (h : MapChange live policy filter map c treatment cookies count requests evicted)
    {a : ParsedCookie} (ha : a ∈ cookies) : a ∈ map.cookieVector ∨ a = c := by
  cases h with
  | ignored => exact .inl ha
  | expires => exact .inl ha
  | removes => exact .inl (List.mem_of_mem_eraseP ha)
  | replaces _ _ perm =>
    rcases List.mem_cons.mp (perm.mem_iff.mp ha) with rfl | hrest
    · exact .inr rfl
    · exact .inl (List.mem_of_mem_eraseP hrest)
  | adds => simpa using ha
  | evicts _ _ _ perm => simpa using perm.mem_iff.mpr (List.mem_cons_of_mem _ ha)

/-- Treating a cookie of a web page keeps the invariant. -/
theorem Inv.checkAndTreatCookie (h : m.Inv) (hscheme : c.protocol ∈ webSchemes) :
    (m.checkAndTreatCookie c policy filter currentTime).1.Inv := by
  obtain ⟨hmap, hignore⟩ := schemeMap_of_mem hscheme
  rw [← storageProtocol_eq h] at hmap
  obtain ⟨cookies, count, requests, hchange, ⟨-, hm | hm⟩ | ⟨map, rfl, hm⟩, -⟩ :=
    m.treats_checkAndTreatCookie c policy filter currentTime
  · exact inv_of_managerMap_eq h hm
  · exact h.insert hm hmap (h.tree _)
  · have htree := h.tree (m.storageProtocol c.protocol)
    have hlabels : storageLabels c = domainLabels c := by rw [storageLabels, hignore]; rfl
    refine h.insert hm hmap ⟨htree.proper.alter, ?_⟩
    refine Trie.AllNodes.alter htree.placed (fun _ a ha => by cases ha) fun _ _ a ha => ?_
    rcases mem_of_mapChange hchange ha with hold | rfl
    · -- A cookie that was there before is in the map at these labels.
      rw [mapFor] at hold
      cases hfind : (m.tree (m.storageProtocol c.protocol)).find (storageLabels c) with
      | none => simp [hfind, CookieMap.empty] at hold
      | some map' =>
        rw [hfind] at hold
        exact htree.placed hfind a hold
    · exact hlabels.symm

theorem Inv.checkAndTreatCookies {cookies : List ParsedCookie} (h : m.Inv)
    (hscheme : ∀ c ∈ cookies, c.protocol ∈ webSchemes) :
    (m.checkAndTreatCookies policy filter currentTime cookies).1.Inv := by
  induction cookies generalizing m with
  | nil => exact h
  | cons c cookies ih =>
    exact ih (h.checkAndTreatCookie (hscheme c List.mem_cons_self))
      fun c' hc' => hscheme c' (List.mem_cons_of_mem _ hc')

theorem Inv.setCookies {p : Platform} {url : URL} {value : Text} (h : m.Inv)
    (hscheme : url.protocol ∈ webSchemes) : (m.setCookies p url value filter currentTime).1.Inv :=
  h.checkAndTreatCookies fun _ hc => parse_protocol hc ▸ hscheme

/-! ## Lookups keep the invariant -/

/-- A change of the maps that adds no cookies and keeps their domains. -/
def KeepsDomains (visit : CookieMap → CookieMap) : Prop :=
  ∀ map, ∀ c ∈ (visit map).cookieVector, ∃ c' ∈ map.cookieVector, domainLabels c = domainLabels c'

theorem IsFiled.visit {tree : CookieTree} (h : IsFiled tree) {visit : CookieMap → CookieMap}
    (hvisit : KeepsDomains visit) (everywhere : Bool) (labels : List Text) :
    IsFiled (if everywhere then tree.mapValues visit else tree.mapAlong visit labels) := by
  have hplaced (path : List Text) (map : CookieMap)
      (hmap : ∀ a ∈ map.cookieVector, domainLabels a = [] ++ path) :
      ∀ a ∈ (visit map).cookieVector, domainLabels a = [] ++ path := by
    intro a ha
    obtain ⟨a', ha', heq⟩ := hvisit map a ha
    rw [heq, hmap a' ha']
  split
  · exact ⟨h.proper.mapValues visit, Trie.AllNodes.mapValues visit h.placed hplaced⟩
  · exact ⟨h.proper.mapAlong, Trie.AllNodes.mapAlong h.placed hplaced⟩

theorem keepsDomains_getAllCookies (currentTime : ℚ) :
    KeepsDomains fun map => (map.getAllCookies currentTime).2.1 := by
  intro map c hc
  rw [getAllCookies_map] at hc
  exact ⟨c, (List.mem_filter.mp hc).1, rfl⟩

theorem keepsDomains_touch (chosen : ParsedCookie → Bool) (currentTime : ℚ) :
    KeepsDomains fun map =>
      { map with cookieVector := map.cookieVector.map (touch chosen currentTime) } := by
  intro map c hc
  obtain ⟨c', hc', rfl⟩ := List.mem_map.mp hc
  refine ⟨c', hc', ?_⟩
  rw [touch]
  split <;> rfl

/-- The invariant holds after one scheme has been searched. -/
theorem Inv.searchTree (h : m.Inv) {protocol : Text} {tree : CookieTree}
    (hlookup : m.managerMap.lookup protocol = some tree) (everywhere : Bool) (labels : List Text)
    (chosen : ParsedCookie → Bool) (currentTime : ℚ) (removed : Nat) :
    ((m.setMap protocol (touchTree everywhere
      (CookieManager.searchTree everywhere tree labels currentTime).2.1 labels chosen
        currentTime)).removedCookies removed).Inv := by
  refine h.insert rfl (h.scheme protocol (by rw [hlookup]; rfl)) ?_
  exact ((h.filed protocol tree hlookup).visit (keepsDomains_getAllCookies currentTime) everywhere
    labels).visit (keepsDomains_touch chosen currentTime) everywhere labels

theorem Inv.searchProtocols (h : m.Inv) (everywhere : Bool) (labels : List Text)
    (chosen : ParsedCookie → Bool) (protocols : List Text) :
    (m.searchProtocols everywhere labels chosen currentTime protocols).2.Inv := by
  induction protocols generalizing m with
  | nil => exact h
  | cons protocol protocols ih =>
    rw [CookieManager.searchProtocols]
    cases hlookup : m.managerMap.lookup protocol with
    | none => exact ih h
    | some tree => exact ih (h.searchTree hlookup everywhere labels chosen _ _)

theorem Inv.getRawCookies {p : Platform} {url : URL} (h : m.Inv) :
    (m.getRawCookies p url filter currentTime).2.Inv := by
  rw [CookieManager.getRawCookies]
  dsimp only
  split
  · exact h
  · exact h.searchProtocols _ _ _ _

/-- The stores that can be filled over the web schemes, from a manager without cookies. -/
inductive Reachable (p : Platform) : CookieManager → Prop
  | start {m : CookieManager} (h : m.managerMap = ∅) : Reachable p m
  | setCookies {m : CookieManager} (h : Reachable p m) (url : URL)
      (hscheme : url.protocol ∈ webSchemes) (value : Text) (filter : CookieFilter)
      (currentTime : ℚ) : Reachable p (m.setCookies p url value filter currentTime).1
  | getRawCookies {m : CookieManager} (h : Reachable p m) (url : URL) (filter : CookieFilter)
      (currentTime : ℚ) : Reachable p (m.getRawCookies p url filter currentTime).2

theorem Reachable.inv {p : Platform} (h : Reachable p m) : m.Inv := by
  induction h with
  | start h =>
    refine ⟨fun protocol hsome => ?_, fun protocol tree hlookup => ?_⟩
    · rw [h, AList.lookup_empty] at hsome
      cases hsome
    · rw [h, AList.lookup_empty] at hlookup
      cases hlookup
  | setCookies _ url hscheme value filter currentTime ih => exact ih.setCookies hscheme
  | getRawCookies _ url filter currentTime ih => exact ih.getRawCookies

end CookieManager

end Odyssey.Network.Cookies
