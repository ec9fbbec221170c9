import Odyssey.Network.Cookies.CookieStore

/-!
# The values of HttpOnly cookies

No operation of the store looks at the value of a cookie. So every operation commutes with `hide`,
which removes the values of the HttpOnly cookies, and stores that differ only in such values stay
so.
-/
namespace Odyssey.Network.Cookies

open WTF Lib

/-! ## Cookies and maps -/

namespace ParsedCookie

/-- The cookie without its value if it is HttpOnly. -/
def hide (c : ParsedCookie) : ParsedCookie := if c.isHttpOnly then { c with value := [] } else c

theorem hide_eq (c : ParsedCookie) : c.hide = { c with value := c.hide.value } := by
  rw [hide]
  split <;> rfl

variable (c : ParsedCookie)

@[simp] theorem hide_name : c.hide.name = c.name := by rw [hide_eq]
@[simp] theorem hide_path : c.hide.path = c.path := by rw [hide_eq]
@[simp] theorem hide_domain : c.hide.domain = c.domain := by rw [hide_eq]
@[simp] theorem hide_protocol : c.hide.protocol = c.protocol := by rw [hide_eq]
@[simp] theorem hide_creationTime : c.hide.creationTime = c.creationTime := by rw [hide_eq]
@[simp] theorem hide_lastAccessed : c.hide.lastAccessed = c.lastAccessed := by rw [hide_eq]
@[simp] theorem hide_isSecure : c.hide.isSecure = c.isSecure := by rw [hide_eq]
@[simp] theorem hide_isHttpOnly : c.hide.isHttpOnly = c.isHttpOnly := by rw [hide_eq]
@[simp] theorem hide_isSession : c.hide.isSession = c.isSession := by rw [hide_eq]
@[simp] theorem hide_isForceExpired : c.hide.isForceExpired = c.isForceExpired := by rw [hide_eq]
@[simp] theorem hide_domainIsIPAddress : c.hide.domainIsIPAddress = c.domainIsIPAddress := by
  rw [hide_eq]

@[simp] theorem hide_hasExpired (currentTime : ℚ) :
    c.hide.hasExpired currentTime = c.hasExpired currentTime := by
  rw [hide_eq]
  rfl

theorem hide_eq_self (h : c.isHttpOnly = false) : c.hide = c := by rw [hide, h]; rfl

end ParsedCookie

namespace CookieMap

def hide (map : CookieMap) : CookieMap := ⟨map.cookieVector.map (·.hide), map.oldestCookie⟩

variable (map : CookieMap) (c : ParsedCookie) (filter : CookieFilter)

theorem oldestFrom_hide (best : Nat) (lastAccessed : ℚ) (i : Nat) (cookies : List ParsedCookie) :
    oldestFrom best lastAccessed i (cookies.map (·.hide)) =
      oldestFrom best lastAccessed i cookies := by
  induction cookies generalizing best lastAccessed i with
  | nil => rfl
  | cons c cookies ih => simp only [List.map_cons, oldestFrom, ih, ParsedCookie.hide_lastAccessed]

theorem findOldest_hide (cookies : List ParsedCookie) :
    findOldest (cookies.map (·.hide)) = findOldest cookies := by
  cases cookies with
  | nil => rfl
  | cons c cookies =>
    simp only [List.map_cons, findOldest, oldestFrom_hide, ParsedCookie.hide_lastAccessed]

theorem position_hide : map.hide.position c.hide = map.position c := by
  have same : sameKey c.hide ∘ (·.hide) = sameKey c := by
    funext c'
    simp [sameKey]
  rw [position, hide, List.findIdx?_map, same, position]

theorem getElem?_hide (i : Nat) :
    map.hide.cookieVector[i]? = map.cookieVector[i]?.map (·.hide) :=
  List.getElem?_map

theorem oldestWith_hide : map.hide.oldestWith c.hide = map.oldestWith c := by
  have holdest : map.hide.oldestCookie.bind (map.hide.cookieVector[·]?) =
      (map.oldestCookie.bind (map.cookieVector[·]?)).map (·.hide) := by
    cases h : map.oldestCookie with
    | none => simp [hide, h]
    | some k => simp [hide, h]
  rw [oldestWith, oldestWith, holdest]
  cases map.oldestCookie.bind (map.cookieVector[·]?) with
  | none => simp [hide]
  | some oldest => simp [hide]

def AddResult.hide : AddResult → AddResult
  | .rejected => .rejected
  | .replaced old map => .replaced old.hide map.hide
  | .added map => .added map.hide

theorem addOrReplaceCookie_hide :
    map.hide.addOrReplaceCookie c.hide filter = (map.addOrReplaceCookie c filter).hide := by
  rw [addOrReplaceCookie, addOrReplaceCookie, position_hide]
  cases map.position c with
  | none =>
    dsimp only
    rw [oldestWith_hide]
    simp [AddResult.hide, hide]
  | some i =>
    dsimp only
    rw [getElem?_hide]
    cases map.cookieVector[i]? with
    | none => rfl
    | some old =>
      simp only [Option.map_some, ParsedCookie.hide_isHttpOnly]
      split
      · rfl
      · simp only [hide, AddResult.hide, ← List.map_set, findOldest_hide]

theorem removeCookieAtIndex_hide (i : Nat) :
    map.hide.removeCookieAtIndex i = (map.removeCookieAtIndex i).hide := by
  simp only [removeCookieAtIndex, hide, List.eraseIdx_map, findOldest_hide]

theorem removeCookie_hide :
    map.hide.removeCookie c.hide filter =
      (map.removeCookie c filter).map fun r => (r.1.hide, r.2.hide) := by
  rw [removeCookie, removeCookie, position_hide]
  cases map.position c with
  | none => rfl
  | some i =>
    rw [Option.bind_some, Option.bind_some, getElem?_hide]
    cases map.cookieVector[i]? with
    | none => rfl
    | some old =>
      simp only [Option.map_some, Option.bind_some, ParsedCookie.hide_isHttpOnly,
        removeCookieAtIndex_hide]
      split <;> rfl

theorem removeOldestCookie_hide :
    map.hide.removeOldestCookie =
      map.removeOldestCookie.map fun r => (r.1.hide, r.2.hide) := by
  rw [removeOldestCookie, removeOldestCookie]
  cases h : map.oldestCookie with
  | none => simp [hide, h]
  | some k =>
    have hk : map.hide.oldestCookie = some k := h
    rw [hk, Option.bind_some, Option.bind_some, getElem?_hide]
    cases map.cookieVector[k]? with
    | none => rfl
    | some c => exact removeCookie_hide map c _

theorem getAllCookiesFrom_hide (currentTime : ℚ) (count i : Nat) :
    getAllCookiesFrom currentTime count map.hide i =
      ((getAllCookiesFrom currentTime count map i).1.map (·.hide),
        (getAllCookiesFrom currentTime count map i).2.1.hide,
        (getAllCookiesFrom currentTime count map i).2.2) := by
  induction count generalizing map i with
  | zero => rfl
  | succ count ih =>
    rw [getAllCookiesFrom, getAllCookiesFrom, getElem?_hide]
    cases map.cookieVector[i]? with
    | none => rfl
    | some c =>
      simp only [Option.map_some, ParsedCookie.hide_hasExpired]
      split
      · rw [removeCookieAtIndex_hide, ih]
      · rw [ih]
        rfl

theorem getAllCookies_hide (currentTime : ℚ) :
    map.hide.getAllCookies currentTime =
      ((map.getAllCookies currentTime).1.map (·.hide),
        (map.getAllCookies currentTime).2.1.hide, (map.getAllCookies currentTime).2.2) := by
  rw [getAllCookies, getAllCookiesFrom_hide]
  simp [getAllCookies, hide]

end CookieMap

/-! ## The manager -/

def BackingStoreRequest.hide : BackingStoreRequest → BackingStoreRequest
  | .insert c => .insert c.hide
  | .update c => .update c.hide
  | .remove c => .remove c.hide

namespace CookieManager

def hideTree (tree : CookieTree) : CookieTree := tree.mapValues (·.hide)

def hideMaps (maps : AList fun _ : Text => CookieTree) : AList fun _ : Text => CookieTree where
  entries := maps.entries.map (Sigma.map id fun _ => hideTree)
  nodupKeys := by
    have := maps.nodupKeys
    rw [List.NodupKeys, List.keys, List.map_map]
    exact this

/-- The manager without the values of HttpOnly cookies. -/
def hide (m : CookieManager) : CookieManager :=
  { m with managerMap := hideMaps m.managerMap, backingStore := m.backingStore.map (·.hide) }

theorem lookup_hideMaps (maps : AList fun _ : Text => CookieTree) (protocol : Text) :
    (hideMaps maps).lookup protocol = (maps.lookup protocol).map hideTree :=
  List.dlookup_map₂ (f := fun _ => hideTree) protocol

theorem hideMaps_insert (maps : AList fun _ : Text => CookieTree) (protocol : Text)
    (tree : CookieTree) :
    hideMaps (maps.insert protocol tree) = (hideMaps maps).insert protocol (hideTree tree) := by
  refine AList.ext ?_
  rw [AList.entries_insert]
  simp [hideMaps, AList.entries_insert, List.kerase, List.eraseP_map, Function.comp_def, Sigma.map]
  rfl

variable (m : CookieManager) (c : ParsedCookie) (policy : BackingStoreRemovalPolicy)
  (filter : CookieFilter) (currentTime : ℚ)

theorem lookup_hide (protocol : Text) :
    m.hide.managerMap.lookup protocol = (m.managerMap.lookup protocol).map hideTree :=
  lookup_hideMaps _ _

theorem tree_hide (protocol : Text) : m.hide.tree protocol = hideTree (m.tree protocol) := by
  rw [CookieManager.tree, lookup_hide, CookieManager.tree]
  cases m.managerMap.lookup protocol <;> rfl

theorem find_hide (tree : CookieTree) (labels : List Text) :
    ((hideTree tree).find labels).getD .empty = ((tree.find labels).getD .empty).hide := by
  rw [hideTree, Trie.find_mapValues]
  cases tree.find labels <;> rfl

theorem setMap_hide (protocol : Text) (tree : CookieTree) :
    m.hide.setMap protocol (hideTree tree) = (m.setMap protocol tree).hide := by
  simp only [setMap, hide, hideMaps_insert]

theorem alter_hide (tree : CookieTree) (map : CookieMap) (labels : List Text) :
    (hideTree tree).alter .empty (fun _ => map.hide) labels =
      hideTree (tree.alter .empty (fun _ => map) labels) :=
  Trie.alter_mapValues (h := CookieMap.hide) (f := fun _ => map) CookieMap.empty (fun _ => rfl) tree

theorem post_hide (request : BackingStoreRequest) :
    m.hide.post request.hide = (m.post request).hide := by
  simp only [post, hide, List.map_append, List.map_cons, List.map_nil]

theorem storageProtocol_hide (protocol : Text) :
    m.hide.storageProtocol protocol = m.storageProtocol protocol := by
  simp only [storageProtocol, lookup_hide, Option.isSome_map]

theorem openMap_hide (protocol : Text) : m.hide.openMap protocol = (m.openMap protocol).hide := by
  simp only [openMap, lookup_hide, Option.isSome_map]
  split
  · rfl
  · exact m.setMap_hide protocol ⟨.empty, []⟩

theorem child_hide (tree : CookieTree) (label : Text) :
    (hideTree tree).child label = (tree.child label).map hideTree :=
  Trie.child_mapValues _ tree label

theorem setChild_hide (tree next : CookieTree) (label : Text) :
    (hideTree tree).setChild label (hideTree next) = hideTree (tree.setChild label next) :=
  Trie.setChild_mapValues _ tree label next

theorem hideTree_leaf : hideTree ⟨.empty, []⟩ = ⟨.empty, []⟩ := rfl

theorem findOrCreateCookieMap_hide (expired : Bool) (tree : CookieTree) (labels : List Text) :
    findOrCreateCookieMap expired (hideTree tree) labels =
      (findOrCreateCookieMap expired tree labels).map hideTree := by
  induction labels generalizing tree with
  | nil => rfl
  | cons label labels ih =>
    rw [findOrCreateCookieMap, findOrCreateCookieMap, child_hide]
    cases tree.child label with
    | some next =>
      simp only [Option.map_some, ih, Option.map_map, Function.comp_def, setChild_hide]
    | none =>
      have hleaf := ih ⟨.empty, []⟩
      rw [hideTree_leaf] at hleaf
      simp only [Option.map_none]
      split
      · rfl
      · conv_lhs => rw [hleaf]
        simp only [Option.map_map, Function.comp_def, setChild_hide]

variable (protocol : Text) (labels : List Text)

theorem addedCookie_hide : m.hide.addedCookie = m.addedCookie.hide := rfl

theorem removedCookie_hide : m.hide.removedCookie = m.removedCookie.hide := rfl

theorem removedCookies_hide (removed : Nat) :
    m.hide.removedCookies removed = (m.removedCookies removed).hide := rfl

theorem expireCookie_hide :
    m.hide.expireCookie protocol labels c.hide policy filter =
      (m.expireCookie protocol labels c policy filter).hide := by
  rw [expireCookie, expireCookie]
  simp only [tree_hide, find_hide, CookieMap.removeCookie_hide]
  split
  · exact m.post_hide (.remove c)
  · cases ((m.tree protocol).find labels |>.getD .empty).removeCookie c filter with
    | none => rfl
    | some removed =>
      obtain ⟨old, map⟩ := removed
      simp only [Option.map_some, alter_hide, setMap_hide, ParsedCookie.hide_isSession]
      split
      · rfl
      · rw [removedCookie_hide]
        exact post_hide _ (.remove old)

theorem postUnlessSession_hide (request : BackingStoreRequest) :
    m.hide.postUnlessSession policy c.hide request.hide =
      (m.postUnlessSession policy c request).hide := by
  rw [postUnlessSession, postUnlessSession, ParsedCookie.hide_isSession, post_hide]
  split <;> rfl

theorem checkGlobalLimit_hide :
    m.hide.checkGlobalLimit policy = (m.checkGlobalLimit policy).hide := by
  rw [checkGlobalLimit, checkGlobalLimit, show m.hide.count = m.count from rfl]
  split <;> rfl

theorem addCookieToMap_hide :
    m.hide.addCookieToMap protocol labels c.hide policy filter =
      ((m.addCookieToMap protocol labels c policy filter).1.hide,
        (m.addCookieToMap protocol labels c policy filter).2.map (·.hide)) := by
  have hinsert (m : CookieManager) := m.postUnlessSession_hide c policy (.insert c)
  rw [addCookieToMap, addCookieToMap]
  simp only [tree_hide, find_hide, CookieMap.addOrReplaceCookie_hide]
  cases ((m.tree protocol).find labels |>.getD .empty).addOrReplaceCookie c filter with
  | rejected => rfl
  | replaced old map =>
    simp only [CookieMap.AddResult.hide, alter_hide, setMap_hide, ParsedCookie.hide_isSession]
    split_ifs
    · exact congrArg (·, none) (post_hide _ (.update c))
    · rw [removedCookie_hide]
      exact congrArg (·, none) (post_hide _ (.remove old))
    · rw [addedCookie_hide]
      exact congrArg (·, none) (post_hide _ (.insert c))
    all_goals rfl
  | added map =>
    have hlength : map.hide.cookieVector.length = map.cookieVector.length := List.length_map _
    have hadded : (if c.isSession then m.hide else m.hide.addedCookie) =
        (if c.isSession then m else m.addedCookie).hide := by split <;> rfl
    simp only [CookieMap.AddResult.hide, ParsedCookie.hide_isSession, hlength, hadded,
      CookieMap.removeOldestCookie_hide, alter_hide, setMap_hide]
    by_cases hlimit : maxCookieCountPerHost < map.cookieVector.length
    · rw [if_pos hlimit, if_pos hlimit]
      cases map.removeOldestCookie with
      | none => exact congrArg (·, none) (hinsert _)
      | some removed =>
        obtain ⟨oldest, map'⟩ := removed
        have hremoved (m : CookieManager) : (if oldest.isSession then m.hide
            else m.hide.removedCookie) =
              (if oldest.isSession then m else m.removedCookie).hide := by
          split <;> rfl
        have hremove (m : CookieManager) := m.postUnlessSession_hide oldest policy (.remove oldest)
        simp only [BackingStoreRequest.hide] at hremove hinsert
        simp only [Option.map_some, ParsedCookie.hide_isSession, alter_hide, setMap_hide, hremoved,
          hremove, hinsert]
    · rw [if_neg hlimit, if_neg hlimit, checkGlobalLimit_hide]
      exact congrArg (·, none) (hinsert _)

theorem checkAndTreatCookie_hide :
    m.hide.checkAndTreatCookie c.hide policy filter currentTime =
      ((m.checkAndTreatCookie c policy filter currentTime).1.hide,
        (m.checkAndTreatCookie c policy filter currentTime).2.map (·.hide)) := by
  have hlabels : storageLabels c.hide = storageLabels c := by
    simp only [storageLabels, domainLabels, ParsedCookie.hide_protocol, ParsedCookie.hide_domain,
      ParsedCookie.hide_domainIsIPAddress]
  have hdump : m.hide.shouldDumpAllCookies = m.shouldDumpAllCookies := rfl
  rw [checkAndTreatCookie, checkAndTreatCookie]
  simp only [ParsedCookie.hide_isHttpOnly, ParsedCookie.hide_protocol, hlabels, hdump,
    ParsedCookie.hide_hasExpired, ParsedCookie.hide_isForceExpired, storageProtocol_hide,
    openMap_hide,
    tree_hide, findOrCreateCookieMap_hide]
  split
  · rfl
  · cases findOrCreateCookieMap (c.hasExpired currentTime)
        ((m.openMap (m.storageProtocol c.protocol)).tree (m.storageProtocol c.protocol))
        (storageLabels c) with
    | none =>
      simp only [Option.map_none]
      split
      · exact congrArg (·, none) (post_hide _ (.remove c))
      · rfl
    | some tree =>
      simp only [Option.map_some, setMap_hide, expireCookie_hide, addCookieToMap_hide]
      split <;> rfl

/-- Treating cookies one after the other commutes with hiding. -/
theorem checkAndTreatCookies_hide (cookies : List ParsedCookie) :
    m.hide.checkAndTreatCookies policy filter currentTime (cookies.map (·.hide)) =
      ((m.checkAndTreatCookies policy filter currentTime cookies).1.hide,
        (m.checkAndTreatCookies policy filter currentTime cookies).2.map (·.hide)) := by
  induction cookies generalizing m with
  | nil => rfl
  | cons c cookies ih =>
    simp only [List.map_cons, checkAndTreatCookies, checkAndTreatCookie_hide, ih, List.map_append]
    cases (m.checkAndTreatCookie c policy filter currentTime).2 <;> rfl

/-! ## Lookup -/

variable (p : Platform) (path : Text) (isConnectionSecure : Bool)

theorem isChosen_hide :
    isChosen p path isConnectionSecure filter c.hide =
      isChosen p path isConnectionSecure filter c := by
  simp only [isChosen, isAllowed, ParsedCookie.hide_path, ParsedCookie.hide_isSecure,
    ParsedCookie.hide_isHttpOnly]

theorem searchTree_hide (everywhere : Bool) (tree : CookieTree) :
    searchTree everywhere (hideTree tree) labels currentTime =
      ((searchTree everywhere tree labels currentTime).1.map (·.hide),
        hideTree (searchTree everywhere tree labels currentTime).2.1,
        (searchTree everywhere tree labels currentTime).2.2) := by
  have hmaps : (if everywhere then (hideTree tree).values else (hideTree tree).along labels) =
      (if everywhere then tree.values else tree.along labels).map (·.hide) := by
    cases everywhere with
    | true => exact Trie.values_mapValues _ tree
    | false => exact Trie.along_mapValues _ tree labels
  have hvisit (map : CookieMap) : (map.hide.getAllCookies currentTime).2.1 =
      (map.getAllCookies currentTime).2.1.hide := by rw [CookieMap.getAllCookies_hide]
  rw [searchTree, searchTree]
  simp only [hmaps, List.flatMap_map, List.map_map, Function.comp_def, CookieMap.getAllCookies_hide,
    List.map_flatMap, Prod.mk.injEq, true_and, and_true]
  cases everywhere with
  | true => simp only [hideTree, if_true, Trie.mapValues_mapValues, hvisit]
  | false => exact Trie.mapAlong_mapValues hvisit tree

section

variable {chosen : ParsedCookie → Bool} (hchosen : ∀ c : ParsedCookie, chosen c.hide = chosen c)
include hchosen

theorem touch_hide : touch chosen currentTime c.hide = (touch chosen currentTime c).hide := by
  simp only [touch, hchosen]
  split
  · simp only [ParsedCookie.hide]
    split <;> rfl
  · rfl

theorem touchTree_hide (everywhere : Bool) (tree : CookieTree) :
    touchTree everywhere (hideTree tree) labels chosen currentTime =
      hideTree (touchTree everywhere tree labels chosen currentTime) := by
  have hvisit (map : CookieMap) :
      ({ map.hide with cookieVector := map.hide.cookieVector.map (touch chosen currentTime) } :
        CookieMap) =
      CookieMap.hide
        { map with cookieVector := map.cookieVector.map (touch chosen currentTime) } := by
    simp only [CookieMap.hide, List.map_map, Function.comp_def, touch_hide _ _ hchosen]
  rw [touchTree, touchTree]
  cases everywhere with
  | true =>
    simp only [hideTree, if_true, Trie.mapValues_mapValues, hvisit]
  | false => exact Trie.mapAlong_mapValues hvisit tree

theorem searchProtocols_hide (everywhere : Bool) (protocols : List Text) :
    m.hide.searchProtocols everywhere labels chosen currentTime protocols =
      ((m.searchProtocols everywhere labels chosen currentTime protocols).1.map (·.hide),
        (m.searchProtocols everywhere labels chosen currentTime protocols).2.hide) := by
  induction protocols generalizing m with
  | nil => rfl
  | cons protocol protocols ih =>
    rw [searchProtocols, searchProtocols, lookup_hide]
    cases m.managerMap.lookup protocol with
    | none => exact ih m
    | some tree =>
      simp only [Option.map_some, searchTree_hide, touchTree_hide _ _ hchosen, setMap_hide,
        removedCookies_hide, ih, List.map_append]

end

theorem cookieSorter_hide (a b : ParsedCookie) : cookieSorter a.hide b.hide = cookieSorter a b := by
  simp only [cookieSorter, ParsedCookie.hide_path, ParsedCookie.hide_creationTime]

theorem targetProtocol_hide (url : URL) : m.hide.targetProtocol url = m.targetProtocol url := by
  simp only [targetProtocol, lookup_hide, Option.isSome_map]

theorem getRawCookies_hide (url : URL) :
    m.hide.getRawCookies p url filter currentTime =
      ((m.getRawCookies p url filter currentTime).1.map (·.hide),
        (m.getRawCookies p url filter currentTime).2.hide) := by
  have hdump : m.hide.shouldDumpAllCookies = m.shouldDumpAllCookies := rfl
  have hkeys : m.hide.managerMap.keys = m.managerMap.keys := by
    simp [hide, hideMaps, AList.keys, List.keys, Function.comp_def, Sigma.map]
  rw [getRawCookies, getRawCookies]
  simp only [hdump, hkeys, targetProtocol_hide]
  split
  · rfl
  · have hchosen := fun c => isChosen_hide c filter p url.path
      (url.protocolIs (text "https") || url.protocolIs (text "wss") ||
        shouldIgnoreScheme url.protocol && m.shouldDumpAllCookies)
    simp only [searchProtocols_hide _ _ _ hchosen, List.filter_map, Function.comp_def, hchosen,
      List.map_map, touch_hide _ _ hchosen, Prod.mk.injEq, and_true]
    rw [List.map_insertionSort _ (fun a b => cookieSorter b a = false) ParsedCookie.hide _
      fun a _ b _ => by rw [cookieSorter_hide], List.map_map]
    rfl

theorem isHttpOnly_of_isChosen {p : Platform} {c : ParsedCookie} {path : Text}
    {isConnectionSecure : Bool}
    (h : isChosen p path isConnectionSecure .noHttpOnlyCookie c = true) : c.isHttpOnly = false := by
  rw [isChosen, isAllowed, Bool.and_eq_true, Bool.and_eq_true] at h
  simpa using h.2.2

/-- Without HttpOnly cookies, the result of a lookup holds none. -/
theorem isHttpOnly_of_mem_getRawCookies {url : URL} {c : ParsedCookie}
    (h : c ∈ (m.getRawCookies p url .noHttpOnlyCookie currentTime).1) : c.isHttpOnly = false := by
  rw [getRawCookies] at h
  dsimp only at h
  split at h
  · cases h
  · rw [List.mem_insertionSort, List.mem_map] at h
    obtain ⟨c', hc', rfl⟩ := h
    have hchosen := (List.mem_filter.mp hc').2
    rw [touch, if_pos hchosen]
    exact isHttpOnly_of_isChosen hchosen

end CookieManager

/-! ## The interface for scripts -/

variable (p : Platform) (m : CookieManager) (url : URL) (value : Text) (currentTime : ℚ)

theorem setCookiesFromDOM_hide :
    (setCookiesFromDOM p m url value currentTime).1.hide =
      (m.hide.checkAndTreatCookies
        (if m.hide.privateMode then .doNotRemoveFromBackingStore else .removeFromBackingStore)
        .withHttpOnlyCookies currentTime
        (((CookieParser.new url).parse p value currentTime).map (·.hide))).1 := by
  rw [CookieManager.checkAndTreatCookies_hide]
  rfl

/-- Scripts read the same from a store without the values of HttpOnly cookies. -/
theorem cookiesForDOM_hide :
    (cookiesForDOM p m.hide url currentTime).1 = (cookiesForDOM p m url currentTime).1 := by
  have hcookies : ((m.getRawCookies p url .noHttpOnlyCookie currentTime).1.map (·.hide)) =
      (m.getRawCookies p url .noHttpOnlyCookie currentTime).1 := by
    refine (List.map_congr_left (g := id) fun c hc => ?_).trans (List.map_id _)
    exact c.hide_eq_self (CookieManager.isHttpOnly_of_mem_getRawCookies m currentTime p hc)
  simp only [cookiesForDOM, cookiesForSession, CookieManager.getCookie,
    CookieManager.getRawCookies_hide, Bool.false_eq_true, if_false, hcookies]

end Odyssey.Network.Cookies
