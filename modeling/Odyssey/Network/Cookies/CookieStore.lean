import Odyssey.Network.Cookies.CookieManager

/-!
# What storing a cookie changes

`checkAndTreatCookie` changes at most one map of the store. `MapChange` lists what can happen to the
cookies of that map, to the counter and to the backing store, and `treats_checkAndTreatCookie` says
that nothing else happens.
-/
namespace Odyssey.Network.Cookies

open WTF Lib

/-! ## One map -/

/-- What `checkAndTreatCookie` is going to do with a cookie. -/
inductive Treatment where
  | ignored
  | expires
  | adds
  | replaces (old : ParsedCookie)

namespace CookieMap

variable {map map' : CookieMap} {c old : ParsedCookie} {filter : CookieFilter} {i : Nat}

theorem perm_eraseP {p : ParsedCookie → Bool} {cookies : List ParsedCookie}
    (h : cookies.find? p = some old) : cookies.Perm (old :: cookies.eraseP p) := by
  induction cookies with
  | nil => cases h
  | cons c cookies ih =>
    rw [List.find?_cons] at h
    rw [List.eraseP_cons]
    cases hc : p c with
    | true =>
      rw [hc] at h
      cases h
      exact .refl _
    | false =>
      rw [hc] at h
      exact ((ih h).cons c).trans (.swap old c _)

/-- The position is that of the first cookie with the name and the path. -/
theorem position_eq_some (h : map.position c = some i) :
    ∃ old, map.cookieVector[i]? = some old ∧ map.cookieVector.find? (sameKey c) = some old ∧
      map.cookieVector.eraseIdx i = map.cookieVector.eraseP (sameKey c) := by
  have erase := @List.eraseP_eq_eraseIdx _ map.cookieVector (sameKey c)
  rw [position] at h
  rw [h] at erase
  obtain ⟨lt, key, before⟩ := List.findIdx?_eq_some_iff_getElem.mp h
  refine ⟨map.cookieVector[i], List.getElem?_eq_getElem lt, ?_, erase.symm⟩
  rw [List.find?_eq_some_iff_getElem]
  refine ⟨key, i, lt, rfl, fun j hj => ?_⟩
  rw [Bool.not_eq_true']
  exact Bool.eq_false_of_not_eq_true (before j hj)

theorem find?_eq_none (h : map.position c = none) : map.cookieVector.find? (sameKey c) = none :=
  List.find?_eq_none.mpr (by simpa [position] using h)

/-- The treatment of a live cookie. -/
def addition (map : CookieMap) (c : ParsedCookie) (filter : CookieFilter) : Treatment :=
  match map.cookieVector.find? (sameKey c) with
  | none => .adds
  | some old =>
    if filter = .noHttpOnlyCookie ∧ old.isHttpOnly = true then .ignored else .replaces old

/-- What adding a cookie does to a map. -/
theorem addOrReplaceCookie_cases (map : CookieMap) (c : ParsedCookie) (filter : CookieFilter) :
    (map.addOrReplaceCookie c filter = .rejected ∧ map.addition c filter = .ignored) ∨
    (∃ old map', map.addOrReplaceCookie c filter = .replaced old map' ∧
      map.addition c filter = .replaces old ∧ map.cookieVector.find? (sameKey c) = some old ∧
      map'.cookieVector.Perm (c :: map.cookieVector.eraseP (sameKey c))) ∨
    (map.addOrReplaceCookie c filter = .added ⟨map.cookieVector ++ [c], map.oldestWith c⟩ ∧
      map.addition c filter = .adds ∧ map.cookieVector.find? (sameKey c) = none) := by
  rw [addOrReplaceCookie, addition]
  cases hposition : map.position c with
  | none =>
    rw [find?_eq_none hposition]
    exact .inr (.inr ⟨rfl, rfl, rfl⟩)
  | some i =>
    obtain ⟨old, hold, found, erase⟩ := position_eq_some hposition
    rw [found]
    dsimp only
    rw [hold]
    dsimp only
    by_cases refused : filter = .noHttpOnlyCookie ∧ old.isHttpOnly = true
    · rw [if_pos refused, if_pos refused]
      exact .inl ⟨rfl, rfl⟩
    · rw [if_neg refused, if_neg refused]
      refine .inr (.inl ⟨old, _, rfl, rfl, rfl, ?_⟩)
      rw [← erase]
      exact List.set_perm_cons_eraseIdx (List.getElem?_eq_some_iff.mp hold).1 c

/-- What removing a cookie does to a map. -/
theorem removeCookie_cases (map : CookieMap) (c : ParsedCookie) (filter : CookieFilter) :
    (map.removeCookie c filter = none ∧
      (filter = .withHttpOnlyCookies → map.cookieVector.find? (sameKey c) = none)) ∨
    ∃ old map', map.removeCookie c filter = some (old, map') ∧
      map.cookieVector.find? (sameKey c) = some old ∧
      map'.cookieVector = map.cookieVector.eraseP (sameKey c) := by
  rw [removeCookie]
  cases hposition : map.position c with
  | none => exact .inl ⟨rfl, fun _ => find?_eq_none hposition⟩
  | some i =>
    obtain ⟨old, hold, found, erase⟩ := position_eq_some hposition
    rw [Option.bind_some, hold, Option.bind_some]
    split_ifs with refused
    · refine .inl ⟨rfl, fun all => ?_⟩
      rw [all] at refused
      exact absurd refused.1 (by decide)
    · exact .inr ⟨old, _, rfl, found, erase⟩

/-- The oldest cookie leaves. It is not the one that has been added unless that has become the
oldest one. -/
theorem removeOldestCookie_eq_some (missing : map.cookieVector.find? (sameKey c) = none)
    (h : removeOldestCookie ⟨map.cookieVector ++ [c], map.oldestWith c⟩ = some (old, map')) :
    (map.cookieVector ++ [c]).Perm (old :: map'.cookieVector) ∧
      (map.oldestWith c ≠ some map.cookieVector.length → old ≠ c) := by
  obtain ⟨first, found, h⟩ := Option.bind_eq_some_iff.mp h
  rcases removeCookie_cases ⟨map.cookieVector ++ [c], map.oldestWith c⟩ first
    .withHttpOnlyCookies with
    ⟨none, -⟩ | ⟨old', map'', some, same, erased⟩
  · rw [none] at h
    cases h
  rw [some] at h
  cases h
  rw [erased]
  refine ⟨perm_eraseP same, fun outlives => ?_⟩
  rintro rfl
  -- the oldest cookie was there before, and has the name and path of the one that leaves
  obtain ⟨k, at_k, found⟩ := Option.bind_eq_some_iff.mp found
  dsimp only at at_k found
  have mem : first ∈ map.cookieVector := by
    rw [oldestWith] at at_k outlives
    cases was : map.oldestCookie.bind (map.cookieVector[·]?) with
    | none => simp [was] at outlives
    | some o =>
      rw [was] at at_k outlives
      dsimp only at at_k outlives
      split_ifs at at_k outlives with earlier
      · exact absurd rfl outlives
      · rw [at_k, Option.bind_some] at was
        rw [List.getElem?_append_left (List.getElem?_eq_some_iff.mp was).1, was] at found
        exact Option.some.inj found ▸ List.mem_of_getElem? was
  have key := List.find?_some same
  have none := List.find?_eq_none.mp missing first mem
  simp only [sameKey, Bool.and_eq_true, beq_iff_eq] at key none
  exact none ⟨key.1.symm, key.2.symm⟩

theorem drop_eraseIdx (cookies : List ParsedCookie) (i : Nat) :
    (cookies.eraseIdx i).drop i = cookies.drop (i + 1) := by
  induction cookies generalizing i with
  | nil => simp
  | cons c cookies ih => cases i <;> simp [ih]

theorem take_eraseIdx (cookies : List ParsedCookie) (i : Nat) :
    (cookies.eraseIdx i).take i = cookies.take i := by
  induction cookies generalizing i with
  | nil => simp
  | cons c cookies ih => cases i <;> simp [ih]

/-- The loop of `getAllCookies` keeps the unexpired cookies, in the result and in the map, and
counts the others. -/
theorem getAllCookiesFrom_eq (currentTime : ℚ) {count : Nat}
    (h : map.cookieVector.length ≤ i + count) :
    (getAllCookiesFrom currentTime count map i).1 =
        (map.cookieVector.drop i).filter (fun c => !c.hasExpired currentTime) ∧
      (getAllCookiesFrom currentTime count map i).2.1.cookieVector = map.cookieVector.take i ++
        (map.cookieVector.drop i).filter (fun c => !c.hasExpired currentTime) ∧
      (getAllCookiesFrom currentTime count map i).2.2 =
        ((map.cookieVector.drop i).filter fun c => c.hasExpired currentTime).length := by
  induction count generalizing map i with
  | zero =>
    rw [getAllCookiesFrom, List.drop_eq_nil_of_le (by omega), List.take_of_length_le (by omega)]
    simp
  | succ count ih =>
    rw [getAllCookiesFrom]
    cases hc : map.cookieVector[i]? with
    | none =>
      have hle := List.getElem?_eq_none_iff.mp hc
      rw [List.drop_eq_nil_of_le hle, List.take_of_length_le hle]
      simp
    | some c =>
      obtain ⟨hlt, rfl⟩ := List.getElem?_eq_some_iff.mp hc
      dsimp only
      rw [List.drop_eq_getElem_cons hlt, List.filter_cons, List.filter_cons]
      by_cases hexpired : map.cookieVector[i].hasExpired currentTime = true
      · have hlength : (map.removeCookieAtIndex i).cookieVector.length ≤ i + count := by
          simp only [removeCookieAtIndex, List.length_eraseIdx_of_lt hlt]
          omega
        obtain ⟨hfst, hsnd, hremoved⟩ := ih hlength
        simp only [removeCookieAtIndex, drop_eraseIdx, take_eraseIdx] at hfst hsnd hremoved
        simp only [hexpired, Bool.not_true, Bool.false_eq_true, if_false, if_true]
        exact ⟨hfst, hsnd, congrArg (· + 1) hremoved⟩
      · obtain ⟨hfst, hsnd, hremoved⟩ := ih (show map.cookieVector.length ≤ i + 1 + count by omega)
        simp only [hexpired, Bool.not_false, Bool.false_eq_true, if_false, if_true]
        rw [hfst, hsnd, List.take_add_one, List.getElem?_eq_getElem hlt, List.append_assoc]
        exact ⟨rfl, rfl, hremoved⟩

theorem getAllCookies_fst (map : CookieMap) (currentTime : ℚ) :
    (map.getAllCookies currentTime).1 =
      map.cookieVector.filter fun c => !c.hasExpired currentTime :=
  (getAllCookiesFrom_eq currentTime (i := 0) (by omega)).1

theorem getAllCookies_map (map : CookieMap) (currentTime : ℚ) :
    (map.getAllCookies currentTime).2.1.cookieVector =
      map.cookieVector.filter fun c => !c.hasExpired currentTime :=
  (getAllCookiesFrom_eq currentTime (i := 0) (by omega)).2.1

theorem getAllCookies_removed (map : CookieMap) (currentTime : ℚ) :
    (map.getAllCookies currentTime).2.2 =
      (map.cookieVector.filter fun c => c.hasExpired currentTime).length :=
  (getAllCookiesFrom_eq currentTime (i := 0) (by omega)).2.2

end CookieMap

/-! ## The map of a cookie -/

open CookieMap

namespace CookieManager

variable {m m' : CookieManager} {c : ParsedCookie} {policy : BackingStoreRemovalPolicy}
  {filter : CookieFilter} {currentTime : ℚ} {protocol : Text} {labels : List Text}

theorem findOrCreateCookieMap_eq (expired : Bool) (tree : CookieTree) (labels : List Text) :
    findOrCreateCookieMap expired tree labels = some (tree.alter .empty id labels) ∨
      (findOrCreateCookieMap expired tree labels = none ∧ expired = true) := by
  induction labels generalizing tree with
  | nil =>
    obtain ⟨value, children⟩ := tree
    exact .inl rfl
  | cons label labels ih =>
    rw [findOrCreateCookieMap, Trie.alter]
    cases tree.child label with
    | some next =>
      rcases ih next with h | ⟨h, hexpired⟩
      · exact .inl (by simp only [h, Option.map_some, Option.getD_some])
      · exact .inr ⟨by simp only [h, Option.map_none], hexpired⟩
    | none =>
      cases expired with
      | true => exact .inr ⟨rfl, rfl⟩
      | false =>
        rcases ih ⟨.empty, []⟩ with h | ⟨-, hexpired⟩
        · exact .inl
            (by simp only [h, Option.map_some, Option.getD_none, Bool.false_eq_true, if_false])
        · cases hexpired

theorem find_eq_none_of_findOrCreateCookieMap {expired : Bool} {tree : CookieTree}
    (h : findOrCreateCookieMap expired tree labels = none) : tree.find labels = none := by
  induction labels generalizing tree with
  | nil => cases h
  | cons label labels ih =>
    rw [findOrCreateCookieMap] at h
    rw [Trie.find_cons]
    cases child : tree.child label with
    | none => rfl
    | some next =>
      rw [child] at h
      exact ih (by simpa using h)

/-- The map for which a cookie is meant. -/
def mapFor (m : CookieManager) (c : ParsedCookie) : CookieMap :=
  ((m.tree (m.storageProtocol c.protocol)).find (storageLabels c)).getD .empty

/-- The store with another map for a cookie. -/
def withMapFor (m : CookieManager) (c : ParsedCookie) (map : CookieMap) :
    AList fun _ : Text => CookieTree :=
  m.managerMap.insert (m.storageProtocol c.protocol)
    ((m.tree (m.storageProtocol c.protocol)).alter .empty (fun _ => map) (storageLabels c))

/-- The maps of all schemes as one trie, whose first keys are the schemes. -/
def store (m : CookieManager) : CookieTree := ⟨.empty, m.managerMap.entries⟩

/-- The cookies in all maps. -/
def cookies (m : CookieManager) : List ParsedCookie := m.store.items fun map => map.cookieVector

/-- The map at the given labels. -/
def mapAt (m : CookieManager) (protocol : Text) (labels : List Text) : CookieMap :=
  ((m.tree protocol).find labels).getD .empty

/-- `m'` is `m` with another map at the given labels. -/
def Puts (m m' : CookieManager) (protocol : Text) (labels : List Text) (map : CookieMap) : Prop :=
  m'.managerMap =
    m.managerMap.insert protocol ((m.tree protocol).alter .empty (fun _ => map) labels)

theorem store_of_insert {tree : CookieTree}
    (h : m'.managerMap = m.managerMap.insert protocol tree) :
    m'.store = m.store.setChild protocol tree := by
  rw [store, h]
  rfl

theorem find_store (m : CookieManager) (protocol : Text) (labels : List Text) :
    (m.store.find (protocol :: labels)).getD .empty = m.mapAt protocol labels := by
  rw [Trie.find_cons, mapAt, CookieManager.tree]
  have child : m.store.child protocol = m.managerMap.lookup protocol := rfl
  rw [child]
  cases m.managerMap.lookup protocol with
  | none => exact (Trie.find_leaf_getD _ _).symm
  | some tree => rfl

/-- The other maps stay as they are. -/
theorem Puts.perm {map : CookieMap} (h : Puts m m' protocol labels map) :
    ∃ rest, m.cookies.Perm ((m.mapAt protocol labels).cookieVector ++ rest) ∧
      m'.cookies.Perm (map.cookieVector ++ rest) := by
  have store : m'.store = m.store.alter .empty (fun _ => map) (protocol :: labels) :=
    store_of_insert h
  obtain ⟨rest, before, after⟩ := @Trie.items_alter _ _ _ (fun _ => map) _
    (fun map => map.cookieVector) CookieMap.empty rfl (protocol :: labels) m.store
  rw [find_store] at before
  exact ⟨rest, before, by rw [cookies, store]; exact after⟩

theorem cookies_of_eq (h : m'.managerMap = m.managerMap) : m'.cookies = m.cookies := by
  rw [cookies, cookies, store, store, h]

/-- Putting back the map that is there. -/
theorem Puts.perm_self (h : Puts m m' protocol labels (m.mapAt protocol labels)) :
    m'.cookies.Perm m.cookies := by
  obtain ⟨rest, before, after⟩ := h.perm
  exact after.trans before.symm

/-- Putting back the maps of a scheme. -/
theorem perm_of_insert_tree (h : m'.managerMap = m.managerMap.insert protocol (m.tree protocol)) :
    m'.cookies.Perm m.cookies := by
  refine @Puts.perm_self _ _ protocol [] ?_
  rw [Puts, h, mapAt]
  cases m.tree protocol
  rfl

/-- The cookie is neither expired nor forced to expire. -/
def IsLive (c : ParsedCookie) (currentTime : ℚ) : Prop :=
  (c.hasExpired currentTime || c.isForceExpired) = false

instance (c : ParsedCookie) (currentTime : ℚ) : Decidable (IsLive c currentTime) :=
  inferInstanceAs (Decidable (_ = _))

@[simp] theorem setMap_managerMap (m : CookieManager) (protocol : Text) (tree : CookieTree) :
    (m.setMap protocol tree).managerMap = m.managerMap.insert protocol tree := rfl

theorem openMap_managerMap (m : CookieManager) (protocol : Text) :
    (m.openMap protocol).managerMap = m.managerMap ∨
      (m.openMap protocol).managerMap = m.managerMap.insert protocol (m.tree protocol) := by
  rw [openMap]
  split
  · exact .inl rfl
  · rename_i h
    rw [CookieManager.tree, Option.not_isSome_iff_eq_none.mp h]
    exact .inr rfl

theorem tree_openMap (m : CookieManager) (protocol : Text) :
    (m.openMap protocol).tree protocol = m.tree protocol := by
  rcases m.openMap_managerMap protocol with h | h
  · rw [CookieManager.tree, h, ← CookieManager.tree]
  · rw [CookieManager.tree, h, AList.lookup_insert, Option.getD_some]

theorem insert_openMap (m : CookieManager) (protocol : Text) (tree : CookieTree) :
    (m.openMap protocol).managerMap.insert protocol tree = m.managerMap.insert protocol tree := by
  rcases m.openMap_managerMap protocol with h | h
  · rw [h]
  · rw [h, AList.insert_insert]

/-! ## The counter and the requests -/

/-- The counter when a cookie is added. -/
def countAdded (m : CookieManager) (c : ParsedCookie) : CookieManager :=
  if c.isSession then m else m.addedCookie

/-- The counter when a cookie is removed. -/
def countRemoved (m : CookieManager) (c : ParsedCookie) : CookieManager :=
  if c.isSession then m else m.removedCookie

/-- The counter when a cookie replaces another one and the backing store is changed. -/
def countReplaced (m : CookieManager) (c old : ParsedCookie) : CookieManager :=
  if c.isSession = old.isSession then m else (m.countRemoved old).countAdded c

/-- The request for a cookie that leaves. -/
def removal (old : ParsedCookie) : List BackingStoreRequest :=
  if old.isSession then [] else [.remove old]

/-- The request for a cookie that is added. -/
def insertion (c : ParsedCookie) : List BackingStoreRequest :=
  if c.isSession then [] else [.insert c]

/-- The request for a cookie that replaces another one. -/
def replacement (c old : ParsedCookie) : List BackingStoreRequest :=
  if !c.isSession && !old.isSession then [.update c]
  else if c.isSession && !old.isSession then [.remove old]
  else if !c.isSession && old.isSession then [.insert c]
  else []

/-- Requests that are only made if the backing store is to be changed. -/
def posted (policy : BackingStoreRemovalPolicy) (requests : List BackingStoreRequest) :
    List BackingStoreRequest :=
  if policy = .removeFromBackingStore then requests else []

/-- What happens to the cookies of a map when `c` is treated, to the counter and to the backing
store; the last argument is the cookie that has to leave because of the limit. -/
inductive MapChange (live : Prop) (policy : BackingStoreRemovalPolicy) (filter : CookieFilter)
    (map : CookieMap) (c : ParsedCookie) : Treatment → List ParsedCookie →
      (CookieManager → CookieManager) → List BackingStoreRequest → Option ParsedCookie → Prop
  | ignored : MapChange live policy filter map c .ignored map.cookieVector id [] none
  | expires (missing : policy ≠ .backingStoreCookieEntry → filter = .withHttpOnlyCookies →
        map.cookieVector.find? (sameKey c) = none) :
      MapChange live policy filter map c .expires map.cookieVector id
        (if policy = .backingStoreCookieEntry then [.remove c] else []) none
  | removes {old : ParsedCookie} (ne : policy ≠ .backingStoreCookieEntry)
      (found : map.cookieVector.find? (sameKey c) = some old) :
      MapChange live policy filter map c .expires (map.cookieVector.eraseP (sameKey c))
        (·.countRemoved old) (removal old) none
  | replaces {old : ParsedCookie} {cookies : List ParsedCookie} (hlive : live)
      (found : map.cookieVector.find? (sameKey c) = some old)
      (perm : cookies.Perm (c :: map.cookieVector.eraseP (sameKey c))) :
      MapChange live policy filter map c (.replaces old) cookies
        (fun m => if policy = .removeFromBackingStore then m.countReplaced c old else m)
        (posted policy (replacement c old)) none
  | adds (hlive : live) :
      MapChange live policy filter map c .adds (map.cookieVector ++ [c]) (·.countAdded c)
        (posted policy (insertion c)) none
  | evicts {oldest : ParsedCookie} {cookies : List ParsedCookie} (hlive : live)
      (full : maxCookieCountPerHost ≤ map.cookieVector.length)
      (ne : map.oldestWith c ≠ some map.cookieVector.length → oldest ≠ c)
      (perm : (map.cookieVector ++ [c]).Perm (oldest :: cookies)) :
      MapChange live policy filter map c .adds cookies
        (fun m => (m.countAdded c).countRemoved oldest)
        (posted policy (removal oldest) ++ posted policy (insertion c)) (some oldest)

/-- The maps, the counter and the requests after a change. -/
structure Effect (m : CookieManager) (maps : AList fun _ : Text => CookieTree)
    (count : CookieManager → CookieManager) (requests : List BackingStoreRequest)
    (m' : CookieManager) : Prop where
  managerMap : m'.managerMap = maps
  counter : m'.count = (count m).count
  assertion : m'.assertionFailed = (count m).assertionFailed
  backingStore : m'.backingStore = m.backingStore ++ requests
  dump : m'.shouldDumpAllCookies = m.shouldDumpAllCookies

namespace Effect

variable {maps : AList fun _ : Text => CookieTree} {count : CookieManager → CookieManager}
  {requests : List BackingStoreRequest}

theorem refl (m : CookieManager) : Effect m m.managerMap id [] m :=
  ⟨rfl, rfl, rfl, (List.append_nil _).symm, rfl⟩

theorem setMap (h : Effect m maps count requests m') (tree : CookieTree) :
    Effect m (maps.insert protocol tree) count requests (m'.setMap protocol tree) :=
  ⟨congrArg (·.insert protocol tree) h.managerMap, h.counter, h.assertion, h.backingStore, h.dump⟩

theorem post (h : Effect m maps count requests m') (request : BackingStoreRequest) :
    Effect m maps count (requests ++ [request]) (m'.post request) :=
  ⟨h.managerMap, h.counter, h.assertion, by rw [← List.append_assoc, ← h.backingStore]; rfl, h.dump⟩

theorem postUnlessSession (h : Effect m maps count requests m') (request : BackingStoreRequest) :
    Effect m maps count (requests ++ posted policy (if c.isSession then [] else [request]))
      (m'.postUnlessSession policy c request) := by
  rw [CookieManager.postUnlessSession, posted]
  by_cases hpolicy : policy = .removeFromBackingStore
  · cases session : c.isSession with
    | true => simpa [hpolicy] using h
    | false => simpa [hpolicy] using h.post request
  · simpa [hpolicy] using h

theorem checkGlobalLimit (h : Effect m maps count requests m') :
    Effect m maps count requests (m'.checkGlobalLimit policy) := by
  rw [CookieManager.checkGlobalLimit]
  split_ifs
  · exact ⟨h.managerMap, h.counter, h.assertion, h.backingStore, h.dump⟩
  · exact h

theorem countAdded (h : Effect m maps count requests m') (c : ParsedCookie) :
    Effect m maps (fun m => (count m).countAdded c) requests (m'.countAdded c) := by
  unfold CookieManager.countAdded
  split_ifs
  · exact h
  · exact ⟨h.managerMap, congrArg (· + 1) h.counter, h.assertion, h.backingStore, h.dump⟩

theorem countRemoved (h : Effect m maps count requests m') (c : ParsedCookie) :
    Effect m maps (fun m => (count m).countRemoved c) requests (m'.countRemoved c) := by
  unfold CookieManager.countRemoved
  split_ifs
  · exact h
  · refine ⟨h.managerMap, congrArg (· - 1) h.counter, ?_, h.backingStore, h.dump⟩
    rw [removedCookie, removedCookie, h.counter, h.assertion]

/-- A cookie that replaces another one under the policy that changes the backing store. -/
theorem replaced (h : Effect m maps id [] m') (c old : ParsedCookie) :
    Effect m maps (·.countReplaced c old) (replacement c old)
      (if !c.isSession && !old.isSession then m'.post (.update c)
      else if c.isSession && !old.isSession then m'.removedCookie.post (.remove old)
      else if !c.isSession && old.isSession then m'.addedCookie.post (.insert c)
      else m') := by
  obtain ⟨maps, counter, assertion, requests, dump⟩ := h
  rw [List.append_nil] at requests
  cases new : c.isSession <;> cases session : old.isSession
  all_goals
    constructor <;>
      simp [replacement, countReplaced, CookieManager.countRemoved, CookieManager.countAdded, new,
        session, CookieManager.post, removedCookie, addedCookie, maps, counter, assertion, requests,
        dump]

end Effect

/-- The maps of a cookie that is treated: its map has other cookies, or nothing or only an empty
trie for its scheme is new. -/
def Refills (m : CookieManager) (c : ParsedCookie) (cookies : List ParsedCookie)
    (m' : CookieManager) : Prop :=
  (cookies = (m.mapFor c).cookieVector ∧ (m'.managerMap = m.managerMap ∨ m'.managerMap =
    m.managerMap.insert (m.storageProtocol c.protocol) (m.tree (m.storageProtocol c.protocol)))) ∨
  ∃ map : CookieMap, map.cookieVector = cookies ∧ m'.managerMap = m.withMapFor c map

/-- The cookies of the other maps stay. -/
theorem Refills.perm {cookies : List ParsedCookie} (h : m.Refills c cookies m') :
    ∃ rest,
      m.cookies.Perm ((m.mapFor c).cookieVector ++ rest) ∧ m'.cookies.Perm (cookies ++ rest) := by
  rcases h with ⟨rfl, maps⟩ | ⟨map, rfl, maps⟩
  · obtain ⟨rest, before, -⟩ :=
      @Puts.perm m { m with managerMap := m.withMapFor c .empty } _ _ _ rfl
    refine ⟨rest, before, List.Perm.trans ?_ before⟩
    rcases maps with same | inserted
    · rw [cookies_of_eq same]
    · exact perm_of_insert_tree inserted
  · exact @Puts.perm _ _ _ _ map maps

/-! ## One cookie -/

/-- What a change of the map at the given labels does. -/
def ChangesMap (live : Prop) (policy : BackingStoreRemovalPolicy) (filter : CookieFilter)
    (m : CookieManager) (protocol : Text) (labels : List Text) (c : ParsedCookie)
    (treatment : Treatment) (result : CookieManager × Option ParsedCookie) : Prop :=
  ∃ map maps count requests, MapChange live policy filter (m.mapAt protocol labels) c treatment
      map.cookieVector count requests result.2 ∧
    (map = m.mapAt protocol labels ∧ maps = m.managerMap ∨
      maps = m.managerMap.insert protocol ((m.tree protocol).alter .empty (fun _ => map) labels)) ∧
    Effect m maps count requests result.1

theorem changesMap_addCookieToMap (m : CookieManager) (protocol : Text) (labels : List Text)
    (c : ParsedCookie) (policy : BackingStoreRemovalPolicy) (filter : CookieFilter) {live : Prop}
    (hlive : live) :
    ChangesMap live policy filter m protocol labels c ((m.mapAt protocol labels).addition c filter)
      (m.addCookieToMap protocol labels c policy filter) := by
  have add := addOrReplaceCookie_cases (m.mapAt protocol labels) c filter
  unfold addCookieToMap
  dsimp only
  rw [← mapAt]
  rcases add with
    ⟨add, treatment⟩ | ⟨old, map, add, treatment, found, perm⟩ | ⟨add, treatment, missing⟩
  all_goals
    rw [add, treatment]
    dsimp only
  · exact ⟨_, _, _, _, .ignored, .inl ⟨rfl, rfl⟩, .refl m⟩
  · have change := @MapChange.replaces live policy filter _ c _ _ hlive found perm
    have put := @Effect.setMap _ _ protocol _ _ _ (.refl m)
      ((m.tree protocol).alter .empty (fun _ => map) labels)
    by_cases hpolicy : policy = .removeFromBackingStore
    · have effect := put.replaced c old
      simp only [hpolicy, posted, if_true] at change ⊢
      split_ifs at effect ⊢ <;> exact ⟨map, _, _, _, change, .inr rfl, effect⟩
    · simp only [hpolicy, posted, if_false] at change ⊢
      exact ⟨map, _, _, _, change, .inr rfl, put⟩
  · have added := (Effect.refl m).countAdded c
    by_cases limit : maxCookieCountPerHost < ((m.mapAt protocol labels).cookieVector ++ [c]).length
    · rw [if_pos limit]
      cases remove : removeOldestCookie ⟨(m.mapAt protocol labels).cookieVector ++ [c],
        (m.mapAt protocol labels).oldestWith c⟩ with
      | none => exact ⟨_, _, _, _, .adds hlive, .inr rfl, (added.setMap _).postUnlessSession _⟩
      | some removed =>
        obtain ⟨oldest, map⟩ := removed
        obtain ⟨perm, ne⟩ := removeOldestCookie_eq_some missing remove
        rw [List.length_append] at limit
        exact ⟨map, _, _, _, .evicts hlive (Nat.le_of_lt_succ limit) ne perm, .inr rfl,
          (((added.setMap _).countRemoved oldest).postUnlessSession _).postUnlessSession _⟩
    · rw [if_neg limit]
      exact ⟨⟨_, _⟩, _, _, _, .adds hlive, .inr rfl,
        ((added.setMap _).checkGlobalLimit).postUnlessSession _⟩

theorem changesMap_expireCookie (m : CookieManager) (protocol : Text) (labels : List Text)
    (c : ParsedCookie) (policy : BackingStoreRemovalPolicy) (filter : CookieFilter) (live : Prop) :
    ChangesMap live policy filter m protocol labels c .expires
      (m.expireCookie protocol labels c policy filter, none) := by
  have remove := removeCookie_cases (m.mapAt protocol labels) c filter
  unfold expireCookie
  dsimp only
  rw [← mapAt]
  by_cases entry : policy = .backingStoreCookieEntry
  · have change := @MapChange.expires live policy filter (m.mapAt protocol labels) c
      fun ne => absurd entry ne
    rw [if_pos entry] at change ⊢
    exact ⟨_, _, _, _, change, .inl ⟨rfl, rfl⟩, (Effect.refl m).post _⟩
  · rw [if_neg entry]
    rcases remove with ⟨remove, missing⟩ | ⟨old, map, remove, found, erased⟩
    · have change :=
        @MapChange.expires live policy filter (m.mapAt protocol labels) c fun _ => missing
      rw [if_neg entry] at change
      rw [remove]
      exact ⟨_, _, _, _, change, .inl ⟨rfl, rfl⟩, .refl m⟩
    · rw [remove]
      have change := @MapChange.removes live policy filter _ c _ entry found
      rw [← erased] at change
      refine ⟨map, _, _, _, change, .inr rfl, ?_⟩
      have effect := (@Effect.setMap _ _ protocol _ _ _ (.refl m)
        ((m.tree protocol).alter .empty (fun _ => map) labels)).countRemoved old
      rw [removal]
      unfold CookieManager.countRemoved at effect ⊢
      dsimp only
      split_ifs at effect ⊢
      · exact effect
      · exact effect.post (.remove old)

/-- The treatment of a cookie by what the store holds for its name, path and domain. -/
def treatment (m : CookieManager) (c : ParsedCookie) (filter : CookieFilter) (currentTime : ℚ) :
    Treatment :=
  if (filter = .noHttpOnlyCookie ∧ c.isHttpOnly = true) ∨
      (shouldIgnoreScheme c.protocol = true ∧ m.shouldDumpAllCookies = false) then .ignored
  else if c.hasExpired currentTime || c.isForceExpired then .expires
  else (m.mapFor c).addition c filter

/-- What treating a cookie does. -/
def Treats (live : Prop) (policy : BackingStoreRemovalPolicy) (filter : CookieFilter)
    (m : CookieManager) (c : ParsedCookie) (treatment : Treatment)
    (result : CookieManager × Option ParsedCookie) : Prop :=
  ∃ cookies count requests,
    MapChange live policy filter (m.mapFor c) c treatment cookies count requests result.2 ∧
      m.Refills c cookies result.1 ∧ Effect m result.1.managerMap count requests result.1

/-- The counter of another manager that has the same one. -/
theorem MapChange.effect {live : Prop} {map : CookieMap} {treatment : Treatment}
    {cookies : List ParsedCookie} {count : CookieManager → CookieManager}
    {requests : List BackingStoreRequest} {evicted : Option ParsedCookie}
    {maps : AList fun _ : Text => CookieTree}
    (h : MapChange live policy filter map c treatment cookies count requests evicted)
    (same : Effect m maps id [] m') : Effect m maps count [] (count m') := by
  cases h with
  | ignored => exact same
  | expires => exact same
  | removes => exact same.countRemoved _
  | replaces =>
    split_ifs
    · unfold countReplaced
      split_ifs
      · exact same
      · exact (same.countRemoved _).countAdded _
    · exact same
  | adds => exact same.countAdded _
  | evicts => exact (same.countAdded _).countRemoved _

/-- Changes after the map at the labels has been created are changes of the old store. -/
theorem ChangesMap.treats {live : Prop} {treatment : Treatment} {m₁ : CookieManager}
    {result : CookieManager × Option ParsedCookie}
    (created : Effect m (m.managerMap.insert (m.storageProtocol c.protocol)
      ((m.tree (m.storageProtocol c.protocol)).alter .empty id (storageLabels c))) id [] m₁)
    (h : m₁.mapAt (m.storageProtocol c.protocol) (storageLabels c) = m.mapFor c →
      ChangesMap live policy filter m₁ (m.storageProtocol c.protocol) (storageLabels c) c treatment
        result) :
    Treats live policy filter m c treatment result := by
  have tree : m₁.tree (m.storageProtocol c.protocol) =
      (m.tree (m.storageProtocol c.protocol)).alter .empty id (storageLabels c) := by
    rw [CookieManager.tree, created.managerMap, AList.lookup_insert, Option.getD_some]
  have map_eq : m₁.mapAt (m.storageProtocol c.protocol) (storageLabels c) = m.mapFor c := by
    rw [mapAt, tree, Trie.find_alter_self, Option.getD_some]
    rfl
  obtain ⟨map, maps, count, requests, change, place, effect⟩ := h map_eq
  have counted := change.effect created
  rw [map_eq] at change
  refine ⟨_, count, requests, change, .inr ⟨map, rfl, ?_⟩, rfl,
    effect.counter.trans counted.counter,
    effect.assertion.trans counted.assertion, ?_, effect.dump.trans created.dump⟩
  · rw [effect.managerMap, withMapFor]
    rcases place with ⟨rfl, rfl⟩ | rfl
    · rw [created.managerMap, map_eq, Trie.alter_eq_alter_const]
      rfl
    · rw [created.managerMap, AList.insert_insert, tree, Trie.alter_alter]
  · rw [effect.backingStore, created.backingStore, List.append_nil]

/-- What `checkAndTreatCookie` does. -/
theorem treats_checkAndTreatCookie (m : CookieManager) (c : ParsedCookie)
    (policy : BackingStoreRemovalPolicy) (filter : CookieFilter) (currentTime : ℚ) :
    Treats (IsLive c currentTime) policy filter m c (m.treatment c filter currentTime)
      (m.checkAndTreatCookie c policy filter currentTime) := by
  have opened : Effect m (m.openMap (m.storageProtocol c.protocol)).managerMap id []
      (m.openMap (m.storageProtocol c.protocol)) := by
    rw [openMap]
    split_ifs
    · exact .refl m
    · exact (Effect.refl m).setMap _
  rw [checkAndTreatCookie, treatment]
  by_cases refused : (filter = .noHttpOnlyCookie ∧ c.isHttpOnly = true) ∨
      (shouldIgnoreScheme c.protocol = true ∧ m.shouldDumpAllCookies = false)
  · rw [if_pos refused, if_pos refused]
    exact ⟨_, _, _, .ignored, .inl ⟨rfl, .inl rfl⟩, .refl m⟩
  rw [if_neg refused, if_neg refused]
  dsimp only
  rw [tree_openMap]
  rcases findOrCreateCookieMap_eq (c.hasExpired currentTime)
    (m.tree (m.storageProtocol c.protocol)) (storageLabels c) with found | ⟨missing, expired⟩
  · rw [found]
    have created := @Effect.setMap _ _ (m.storageProtocol c.protocol) _ _ _ opened
      ((m.tree (m.storageProtocol c.protocol)).alter .empty id (storageLabels c))
    rw [insert_openMap] at created
    refine ChangesMap.treats created fun map_eq => ?_
    rw [← map_eq]
    dsimp only
    split_ifs with expired
    · exact changesMap_expireCookie ..
    · exact changesMap_addCookieToMap _ _ _ _ _ _ (Bool.eq_false_of_not_eq_true expired)
  · have empty : (m.mapFor c).cookieVector.find? (sameKey c) = none := by
      rw [mapFor, find_eq_none_of_findOrCreateCookieMap missing]
      rfl
    have change := @MapChange.expires (IsLive c currentTime) policy filter (m.mapFor c) c
      fun _ _ => empty
    rw [missing, expired, Bool.true_or, if_pos rfl]
    dsimp only
    split_ifs at change ⊢
    · exact ⟨_, _, _, change, .inl ⟨rfl, m.openMap_managerMap _⟩, opened.post _⟩
    · exact ⟨_, _, _, change, .inl ⟨rfl, m.openMap_managerMap _⟩, opened⟩

end CookieManager

end Odyssey.Network.Cookies
