import Odyssey.Lib.Runs
import Odyssey.Network.Cookies.CookieMatching

/-!
# The cookie counter

`m_count` is meant to be the number of cookies in memory that are not session cookies. A `CookieMap`
keeps it when a cookie is added or removed. If a cookie replaces another one, `addCookieToMap` has
to do it, and does so only if the backing store is to be changed. So the counter goes wrong where,
in private mode or while the database is loaded, a session cookie and a persistent cookie replace
each other.
-/

namespace Odyssey.Network.Cookies

open WTF Lib CookieMap

/-- A persistent cookie makes the number of persistent cookies greater. -/
def Treatment.addsOne : Treatment → Bool
  | .adds => true
  | .replaces old => old.isSession
  | _ => false

/-- No cookie of the other kind is replaced. -/
def Treatment.keepsKind (c : ParsedCookie) : Treatment → Bool
  | .replaces old => old.isSession == c.isSession
  | _ => true

namespace CookieManager

/-! ## The number of persistent cookies -/

def isPersistent (c : ParsedCookie) : Bool := !c.isSession

/-- The number of cookies in all maps that are not session cookies. -/
def persistentCount (m : CookieManager) : Nat := m.cookies.countP isPersistent

section Count

variable {m m' : CookieManager} {protocol : Text} {c old : ParsedCookie}
  {policy : BackingStoreRemovalPolicy} {filter : CookieFilter} {currentTime : ℚ}

/-- What a cookie adds to the number of persistent cookies. -/
def weight (c : ParsedCookie) : Nat := if isPersistent c = true then 1 else 0

theorem Refills.persistentCount {cookies : List ParsedCookie} (h : m.Refills c cookies m') :
    (m.mapFor c).cookieVector.countP isPersistent ≤ m.persistentCount ∧
      m'.persistentCount + (m.mapFor c).cookieVector.countP isPersistent =
        m.persistentCount + cookies.countP isPersistent := by
  obtain ⟨rest, before, after⟩ := h.perm
  rw [CookieManager.persistentCount, CookieManager.persistentCount, before.countP_eq,
    after.countP_eq, List.countP_append, List.countP_append]
  omega

/-! ## The counter -/

/-- The counter is the number of persistent cookies. -/
def CountExact (m : CookieManager) : Prop := m.count.toNat = m.persistentCount

theorem toNat_addedCookie (h : m.count.toNat + 1 < 65536) :
    m.addedCookie.count.toNat = m.count.toNat + 1 := by
  rw [addedCookie, UInt16.toNat_add]
  exact Nat.mod_eq_of_lt h

theorem removedCookies_of_le {removed : Nat} (h : removed ≤ m.count.toNat) :
    (m.removedCookies removed).assertionFailed = m.assertionFailed ∧
      (m.removedCookies removed).count.toNat = m.count.toNat - removed := by
  have small : removed < 2 ^ 16 := Nat.lt_of_le_of_lt h m.count.toNat_lt
  have value : removed.toUInt16.toNat = removed := Nat.mod_eq_of_lt small
  have le : removed.toUInt16 ≤ m.count := UInt16.le_iff_toNat_le.mpr (by rw [value]; exact h)
  refine ⟨by simp [removedCookies, Nat.not_lt.mpr h], ?_⟩
  rw [removedCookies]
  dsimp only
  rw [UInt16.toNat_sub_of_le _ _ le, value]

theorem weight_eq_iff : weight old = weight c ↔ old.isSession = c.isSession := by
  cases new : c.isSession <;> cases session : old.isSession <;>
    simp [weight, isPersistent, new, session]

theorem countP_cons_weight (cookies : List ParsedCookie) :
    (c :: cookies).countP isPersistent = cookies.countP isPersistent + weight c :=
  List.countP_cons

theorem countAdded_spec (room : c.isSession = false → m.count.toNat + 1 < 65536) :
    (m.countAdded c).assertionFailed = m.assertionFailed ∧
      (m.countAdded c).count.toNat = m.count.toNat + weight c := by
  rw [countAdded, weight, isPersistent]
  cases session : c.isSession with
  | true => exact ⟨rfl, rfl⟩
  | false => exact ⟨rfl, toNat_addedCookie (room session)⟩

theorem countRemoved_spec (le : weight c ≤ m.count.toNat) :
    (m.countRemoved c).assertionFailed = m.assertionFailed ∧
      (m.countRemoved c).count.toNat = m.count.toNat - weight c := by
  rw [weight, isPersistent] at le ⊢
  rw [countRemoved]
  cases session : c.isSession with
  | true => exact ⟨rfl, rfl⟩
  | false =>
    rw [session] at le
    have pos : 1 ≤ m.count := UInt16.le_iff_toNat_le.mpr le
    refine ⟨?_, UInt16.toNat_sub_of_le _ _ pos⟩
    have ne : m.count ≠ 0 := fun zero => absurd (zero ▸ pos) (by decide)
    simp [removedCookie, ne]

theorem countReplaced_spec (le : weight old ≤ m.count.toNat)
    (room : c.isSession = false → old.isSession = true → m.count.toNat + 1 < 65536) :
    (m.countReplaced c old).assertionFailed = m.assertionFailed ∧
      (m.countReplaced c old).count.toNat + weight old = m.count.toNat + weight c := by
  rw [countReplaced]
  split_ifs with same
  · exact ⟨rfl, by rw [weight_eq_iff.mpr same.symm]⟩
  · obtain ⟨removed, count⟩ := countRemoved_spec le
    obtain ⟨added, count'⟩ := @countAdded_spec (m.countRemoved old) c fun new => by
      have := room new (by simpa [new] using same)
      omega
    exact ⟨added.trans removed, by omega⟩

/-- The counter changes with the persistent cookies of the map exactly if a replacement is
counted. -/
theorem MapChange.counter {live : Prop} {map : CookieMap} {treatment : Treatment}
    {cookies : List ParsedCookie} {count : CookieManager → CookieManager}
    {requests : List BackingStoreRequest} {evicted : Option ParsedCookie}
    (h : MapChange live policy filter map c treatment cookies count requests evicted)
    (le : map.cookieVector.countP isPersistent ≤ m.count.toNat)
    (room : c.isSession = false → treatment.addsOne = true → m.count.toNat + 1 < 65536) :
    (count m).assertionFailed = m.assertionFailed ∧
      ((count m).count.toNat + map.cookieVector.countP isPersistent =
        m.count.toNat + cookies.countP isPersistent ↔
          policy = .removeFromBackingStore ∨ treatment.keepsKind c = true) := by
  have found {old : ParsedCookie} (found : map.cookieVector.find? (sameKey c) = some old) :
      map.cookieVector.countP isPersistent =
        (map.cookieVector.eraseP (sameKey c)).countP isPersistent + weight old := by
    rw [(perm_eraseP found).countP_eq, countP_cons_weight]
  cases h with
  | ignored => exact ⟨rfl, iff_of_true rfl (.inr rfl)⟩
  | expires => exact ⟨rfl, iff_of_true rfl (.inr rfl)⟩
  | @removes old _ isOld =>
    have total := found isOld
    obtain ⟨assertion, count⟩ := @countRemoved_spec m old (by omega)
    dsimp only
    exact ⟨assertion, iff_of_true (by omega) (.inr rfl)⟩
  | @replaces old _ _ isOld perm =>
    have total := found isOld
    rw [perm.countP_eq, countP_cons_weight]
    by_cases hpolicy : policy = .removeFromBackingStore
    · obtain ⟨assertion, count⟩ := @countReplaced_spec m c old (by omega) room
      simp only [hpolicy, if_true, true_or, iff_true]
      exact ⟨assertion, by omega⟩
    · simp only [hpolicy, if_false, false_or, true_and, Treatment.keepsKind, beq_iff_eq]
      rw [← weight_eq_iff]
      omega
  | adds =>
    obtain ⟨assertion, count⟩ := @countAdded_spec m c fun new => room new rfl
    rw [(List.perm_append_singleton c _).countP_eq, countP_cons_weight]
    dsimp only
    exact ⟨assertion, iff_of_true (by omega) (.inr rfl)⟩
  | @evicts oldest _ _ _ _ perm =>
    have total := perm.countP_eq isPersistent
    rw [(List.perm_append_singleton c _).countP_eq, countP_cons_weight, countP_cons_weight] at total
    obtain ⟨added, count⟩ := @countAdded_spec m c fun new => room new rfl
    obtain ⟨removed, count'⟩ := @countRemoved_spec (m.countAdded c) oldest (by omega)
    dsimp only
    exact ⟨removed.trans added, iff_of_true (by omega) (.inr rfl)⟩

/-! ### One cookie -/

def Grows (m : CookieManager) (c : ParsedCookie) (filter : CookieFilter) (currentTime : ℚ) : Prop :=
  c.isSession = false ∧ (m.treatment c filter currentTime).addsOne = true

/-- The cookie does not replace one of the other kind without a change of the backing store. -/
def CountsReplacement (m : CookieManager) (c : ParsedCookie) (policy : BackingStoreRemovalPolicy)
    (filter : CookieFilter) (currentTime : ℚ) : Prop :=
  policy = .removeFromBackingStore ∨ (m.treatment c filter currentTime).keepsKind c = true

instance (m : CookieManager) (c : ParsedCookie) (filter : CookieFilter) (currentTime : ℚ) :
    Decidable (m.Grows c filter currentTime) :=
  inferInstanceAs (Decidable (_ ∧ _))

instance (m : CookieManager) (c : ParsedCookie) (policy : BackingStoreRemovalPolicy)
    (filter : CookieFilter) (currentTime : ℚ) :
    Decidable (m.CountsReplacement c policy filter currentTime) :=
  inferInstanceAs (Decidable (_ ∨ _))

/-- Treating a cookie keeps the counter right exactly if a replacement is counted. -/
theorem checkAndTreatCookie_spec (exact : m.CountExact)
    (room : m.Grows c filter currentTime → m.persistentCount + 1 < 65536) :
    (m.checkAndTreatCookie c policy filter currentTime).1.assertionFailed = m.assertionFailed ∧
      ((m.checkAndTreatCookie c policy filter currentTime).1.CountExact ↔
        m.CountsReplacement c policy filter currentTime) := by
  obtain ⟨cookies, count, requests, change, refills, effect⟩ :=
    m.treats_checkAndTreatCookie c policy filter currentTime
  obtain ⟨le, total⟩ := refills.persistentCount
  rw [CountExact] at exact
  obtain ⟨assertion, iff⟩ := @MapChange.counter m _ _ _ _ _ _ _ _ _ _ change (by omega)
    fun new adds => exact ▸ room ⟨new, adds⟩
  rw [effect.assertion, CountsReplacement, ← iff, CountExact, effect.counter]
  exact ⟨assertion, by omega⟩

/-! ### Lookups -/

/-- Searching the maps of one scheme takes as many cookies of some kind away as it takes from the
visited maps. -/
theorem countP_searchTree {q : ParsedCookie → Bool} {δ : CookieMap → Nat}
    {chosen : ParsedCookie → Bool} {currentTime : ℚ}
    (visited : ∀ map : CookieMap,
      (map.getAllCookies currentTime).2.1.cookieVector.countP q + δ map =
      map.cookieVector.countP q)
    (touched : ∀ cookies : List ParsedCookie,
      (cookies.map (touch chosen currentTime)).countP q = cookies.countP q)
    (everywhere : Bool) (tree : CookieTree) (labels : List Text) :
    ((touchTree everywhere (searchTree everywhere tree labels currentTime).2.1 labels chosen
        currentTime).items fun map => map.cookieVector).countP q +
      ((if everywhere then tree.values else tree.along labels).map δ).sum =
      (tree.items fun map => map.cookieVector).countP q := by
  have touched (map : CookieMap) :
      (map.cookieVector.map (touch chosen currentTime)).countP q + 0 =
        map.cookieVector.countP q := touched map.cookieVector
  simp only [touchTree, searchTree]
  cases everywhere with
  | true =>
    have first := Trie.countP_items_mapValues (g := fun map : CookieMap => map.cookieVector)
      (q := q) visited tree
    have second := @Trie.countP_items_mapValues _ _ (fun map : CookieMap =>
        ⟨map.cookieVector.map (touch chosen currentTime), map.oldestCookie⟩) _
      (fun map : CookieMap => map.cookieVector) q (fun _ => 0) touched
      (tree.mapValues fun map => (map.getAllCookies currentTime).2.1)
    simp only [if_true]
    rw [← first, ← second]
    simp
  | false =>
    have first := Trie.countP_items_mapAlong (g := fun map : CookieMap => map.cookieVector)
      (q := q) visited labels tree
    have second := @Trie.countP_items_mapAlong _ _ _ (fun map : CookieMap =>
        ⟨map.cookieVector.map (touch chosen currentTime), map.oldestCookie⟩) _
      (fun map : CookieMap => map.cookieVector) q (fun _ => 0) touched labels
      (tree.mapAlong (fun map => (map.getAllCookies currentTime).2.1) labels)
    simp only [Bool.false_eq_true, if_false]
    rw [← first, ← second]
    simp

/-- Changing the maps of one scheme. -/
theorem countP_setMap {tree : CookieTree} (lookup : m.managerMap.lookup protocol = some tree)
    (tree' : CookieTree) (q : ParsedCookie → Bool) :
    (m.setMap protocol tree').cookies.countP q +
        (tree.items fun map => map.cookieVector).countP q =
      m.cookies.countP q + (tree'.items fun map => map.cookieVector).countP q := by
  have child : m.store.child protocol = some tree := lookup
  have before := (Trie.items_perm_of_child (g := fun map : CookieMap => map.cookieVector)
    child).countP_eq q
  have after := (Trie.items_setChild (fun map : CookieMap => map.cookieVector) m.store protocol
    tree').countP_eq q
  rw [← store_of_insert (setMap_managerMap m protocol tree')] at after
  rw [List.countP_append] at before after
  rw [cookies, cookies]
  omega

/-- Expired cookies are taken away, which the counter knows, and times of access are changed. -/
def Expires (currentTime : ℚ) (m m' : CookieManager) : Prop :=
  ∃ expired : List ParsedCookie, (∀ c ∈ expired, c.hasExpired currentTime = true) ∧
    (∀ q : ParsedCookie → Bool, (∀ c time, q { c with lastAccessed := time } = q c) →
      m'.cookies.countP q + expired.countP q = m.cookies.countP q) ∧
    (expired.length ≤ m.count.toNat →
      m'.assertionFailed = m.assertionFailed ∧ m'.count.toNat = m.count.toNat - expired.length)

theorem Expires.refl (m : CookieManager) : Expires currentTime m m :=
  ⟨[], by simp, fun _ _ => rfl, fun _ => ⟨rfl, rfl⟩⟩

theorem Expires.trans {m' m'' : CookieManager} (h : Expires currentTime m m')
    (h' : Expires currentTime m' m'') : Expires currentTime m m'' := by
  obtain ⟨expired, all, counts, counter⟩ := h
  obtain ⟨expired', all', counts', counter'⟩ := h'
  refine ⟨expired ++ expired', fun c mem => (List.mem_append.mp mem).elim (all c) (all' c),
    fun q touched => ?_, fun le => ?_⟩
  · have first := counts q touched
    have second := counts' q touched
    rw [List.countP_append]
    omega
  · rw [List.length_append] at le ⊢
    obtain ⟨assertion, count⟩ := counter (by omega)
    obtain ⟨assertion', count'⟩ := counter' (by omega)
    exact ⟨assertion'.trans assertion, by omega⟩

/-- The search in the maps of one scheme. -/
theorem expires_searchTree {tree : CookieTree} (lookup : m.managerMap.lookup protocol = some tree)
    (everywhere : Bool) (labels : List Text) (chosen : ParsedCookie → Bool) (currentTime : ℚ) :
    Expires currentTime m ((m.setMap protocol (touchTree everywhere
      (searchTree everywhere tree labels currentTime).2.1 labels chosen
        currentTime)).removedCookies (searchTree everywhere tree labels currentTime).2.2) := by
  have removed : (searchTree everywhere tree labels currentTime).2.2 =
      ((if everywhere then tree.values else tree.along labels).flatMap fun map =>
        map.cookieVector.filter fun c => c.hasExpired currentTime).length := by
    rw [List.length_flatMap]
    exact congrArg (List.sum <| List.map · _) (funext fun map => getAllCookies_removed map _)
  refine ⟨(if everywhere then tree.values else tree.along labels).flatMap fun map =>
    map.cookieVector.filter fun c => c.hasExpired currentTime, fun c mem => ?_, fun q touched => ?_,
    fun le => removed ▸ removedCookies_of_le (removed ▸ le)⟩
  · obtain ⟨map, -, mem⟩ := List.mem_flatMap.mp mem
    exact (List.mem_filter.mp mem).2
  · have visited (map : CookieMap) :
        (map.getAllCookies currentTime).2.1.cookieVector.countP q +
          (map.cookieVector.filter fun c => c.hasExpired currentTime).countP q =
          map.cookieVector.countP q := by
      rw [getAllCookies_map, Nat.add_comm]
      exact (List.countP_eq_countP_filter_add _ _ _).symm
    have same (cookies : List ParsedCookie) :
        (cookies.map (touch chosen currentTime)).countP q = cookies.countP q := by
      rw [List.countP_map]
      congr 1
      funext c
      rw [Function.comp_apply, touch]
      split
      · exact touched c currentTime
      · rfl
    have search := countP_searchTree visited same everywhere tree labels
    have total := countP_setMap lookup (touchTree everywhere
      (searchTree everywhere tree labels currentTime).2.1 labels chosen currentTime) q
    rw [List.countP_flatMap]
    simp only [Function.comp_def]
    change (m.setMap protocol _).cookies.countP q + _ = _
    omega

theorem expires_searchProtocols (m : CookieManager) (everywhere : Bool) (labels : List Text)
    (chosen : ParsedCookie → Bool) (currentTime : ℚ) (protocols : List Text) :
    Expires currentTime m
      (m.searchProtocols everywhere labels chosen currentTime protocols).2 := by
  induction protocols generalizing m with
  | nil => exact .refl m
  | cons protocol protocols ih =>
    rw [searchProtocols]
    cases lookup : m.managerMap.lookup protocol with
    | none => exact ih m
    | some tree =>
      exact (expires_searchTree lookup everywhere labels chosen currentTime).trans (ih _)

theorem expires_getRawCookies (m : CookieManager) (p : Platform) (url : URL) (filter : CookieFilter)
    (currentTime : ℚ) : Expires currentTime m (m.getRawCookies p url filter currentTime).2 := by
  rw [getRawCookies]
  dsimp only
  split
  · exact .refl m
  · exact expires_searchProtocols ..

/-- A lookup keeps the counter right: expired cookies are persistent. -/
theorem getRawCookies_spec (exact : m.CountExact) (p : Platform) (url : URL) :
    (m.getRawCookies p url filter currentTime).2.assertionFailed = m.assertionFailed ∧
      (m.getRawCookies p url filter currentTime).2.CountExact := by
  obtain ⟨expired, all, counts, counter⟩ := m.expires_getRawCookies p url filter currentTime
  have total := counts isPersistent fun _ _ => rfl
  have persistent : expired.countP isPersistent = expired.length := by
    refine List.countP_eq_length.mpr fun c mem => ?_
    have expired := all c mem
    cases session : c.isSession with
    | true => simp [ParsedCookie.hasExpired, session] at expired
    | false => simp [isPersistent, session]
  rw [CountExact, persistentCount] at exact ⊢
  obtain ⟨assertion, count⟩ := counter (by omega)
  exact ⟨assertion, by omega⟩

end Count

/-! ## Runs of the manager -/

/-- `removeAllCookies` in memory. -/
def removeAllCookies (m : CookieManager) : CookieManager :=
  { m with
    managerMap := ⟨m.managerMap.entries.map fun e => ⟨e.1, ⟨.empty, []⟩⟩, by
      rw [List.NodupKeys, List.keys, List.map_map]
      exact m.managerMap.nodupKeys⟩
    count := 0 }

theorem cookies_removeAllCookies (m : CookieManager) : m.removeAllCookies.cookies = [] := by
  rw [cookies, store, Trie.items_eq]
  simp [removeAllCookies, Trie.items_leaf, CookieMap.empty, List.flatMap_map]

theorem removeAllCookies_countExact (m : CookieManager) : m.removeAllCookies.CountExact := by
  rw [CountExact, persistentCount, cookies_removeAllCookies]
  rfl

end CookieManager

/-- The manager with the flag that says whether the database has been loaded. -/
structure SyncedManager extends CookieManager where
  syncedWithDatabase : Bool

/-- What the calls of the manager are made of. -/
inductive Turn where
  | treat (c : ParsedCookie) (policy : BackingStoreRemovalPolicy) (filter : CookieFilter)
      (currentTime : ℚ)
  | lookup (url : URL) (filter : CookieFilter) (currentTime : ℚ)
  | removeAll
  | setPrivateMode (privateMode : Bool)
  | setSynced

/-- A call of the manager. The cookies that the database holds and the URL that
`removeCookiesFromDomain` makes of its arguments are part of the call. -/
inductive Call where
  | setCookies (url : URL) (value : Text) (filter : CookieFilter) (currentTime : ℚ)
  | setCookieVector (url : URL) (cookies : List Text) (filter : CookieFilter) (currentTime : ℚ)
  | getCookie (url : URL) (filter : CookieFilter) (currentTime : ℚ)
  | removeCookieWithName (url : URL) (cookieName : Text) (currentTime : ℚ)
  | removeCookiesFromDomain (url : URL) (currentTime : ℚ)
  | removeAllCookies
  | setPrivateMode (privateMode : Bool) (database : List ParsedCookie) (currentTime : ℚ)
  | getBackingStoreCookies (database : List ParsedCookie) (currentTime : ℚ)

namespace SyncedManager

variable (p : Platform)

/-- No assertion has failed so far. -/
def unfailed (s : SyncedManager) : CookieManager :=
  { s.toCookieManager with assertionFailed := false }

/-- The calls change the manager; `none` if the assertion of `removedCookie` fails in them. -/
def checked (s : SyncedManager) (calls : CookieManager → CookieManager) : Option SyncedManager :=
  if (calls s.unfailed).assertionFailed then none
  else some { s with toCookieManager := calls s.unfailed }

/-- One turn; `none` if `removedCookie` is called while the counter is zero. -/
def step (s : SyncedManager) : Turn → Option SyncedManager
  | .treat c policy filter currentTime =>
    s.checked fun m => (m.checkAndTreatCookie c policy filter currentTime).1
  | .lookup url filter currentTime =>
    s.checked fun m => (m.getRawCookies p url filter currentTime).2
  | .removeAll => some { s with toCookieManager := s.removeAllCookies }
  | .setPrivateMode privateMode => some { s with privateMode }
  | .setSynced => some { s with syncedWithDatabase := true }

/-- The policy for the cookies of a response or a script. -/
def treatmentPolicy (s : SyncedManager) : BackingStoreRemovalPolicy :=
  if s.privateMode then .doNotRemoveFromBackingStore else .removeFromBackingStore

/-- A cookie as the database returns it. -/
def fromDatabase (c : ParsedCookie) : ParsedCookie :=
  { c with isSession := false, isForceExpired := false, domainIsIPAddress := false }

/-- The loop of `getBackingStoreCookies`. -/
def loadTurns (database : List ParsedCookie) (currentTime : ℚ) : List Turn :=
  (database.map fun c =>
    .treat (fromDatabase c) .backingStoreCookieEntry .withHttpOnlyCookies currentTime) ++
      [.setSynced]

/-- Look cookies up and let those that fulfil a condition expire. -/
def expireTurns (s : SyncedManager) (url : URL) (matching : ParsedCookie → Bool)
    (currentTime : ℚ) : List Turn :=
  .lookup url .withHttpOnlyCookies currentTime ::
    (((s.getRawCookies p url .withHttpOnlyCookies currentTime).1.filter matching).map fun c =>
      .treat { c with isForceExpired := true } .removeFromBackingStore .withHttpOnlyCookies
        currentTime)

/-- The turns of a call. -/
def turns (s : SyncedManager) : Call → List Turn
  | .setCookies url value filter currentTime =>
    ((CookieParser.new url).parse p value currentTime).map fun c =>
      .treat c s.treatmentPolicy filter currentTime
  | .setCookieVector url cookies filter currentTime =>
    (cookies.filterMap fun cookie =>
      (CookieParser.new url).parseOneCookieString p cookie currentTime).map fun c =>
        .treat c s.treatmentPolicy filter currentTime
  | .getCookie url filter currentTime => [.lookup url filter currentTime]
  | .removeCookieWithName url cookieName currentTime =>
    s.expireTurns p url (fun c => p.equalIgnoringCase c.name cookieName &&
      Text.startsWithIgnoringCase p.equalIgnoringCase url.path c.path) currentTime
  | .removeCookiesFromDomain url currentTime => s.expireTurns p url (fun _ => true) currentTime
  | .removeAllCookies => [.removeAll]
  | .setPrivateMode privateMode database currentTime =>
    if s.privateMode = privateMode then []
    else if privateMode && !s.syncedWithDatabase then [.setPrivateMode privateMode]
    else .setPrivateMode privateMode :: .removeAll ::
      if privateMode then [] else loadTurns database currentTime
  | .getBackingStoreCookies database currentTime =>
    if s.privateMode then [] else loadTurns database currentTime

/-- The turns of some calls, one after the other. -/
def turnsOf (s : SyncedManager) : List Call → List Turn
  | [] => []
  | call :: calls =>
    s.turns p call ++
      match Runs.run (step p) s (s.turns p call) with
      | none => []
      | some s' => s'.turnsOf calls

/-- The turns of some calls are the calls, one after the other. -/
theorem run_turnsOf (s : SyncedManager) (calls : List Call) :
    Runs.run (step p) s (s.turnsOf p calls) =
      calls.foldlM (fun s call => Runs.run (step p) s (s.turns p call)) s := by
  induction calls generalizing s with
  | nil => rfl
  | cons call calls ih =>
    rw [turnsOf, List.foldlM_cons, Runs.run, List.foldlM_append]
    change (Runs.run (step p) s (s.turns p call)).bind _ =
      (Runs.run (step p) s (s.turns p call)).bind _
    cases Runs.run (step p) s (s.turns p call) with
    | none => rfl
    | some s' => exact ih s'

variable {p} {s s' : SyncedManager}

theorem checked_of_unfailed {calls : CookieManager → CookieManager}
    (h : (calls s.unfailed).assertionFailed = false) :
    s.checked calls = some { s with toCookieManager := calls s.unfailed } :=
  if_neg (by simp [h])

theorem checked_eq_some {calls : CookieManager → CookieManager} (ok : s.assertionFailed = false)
    (h : s.checked calls = some s') :
    s'.toCookieManager = calls s.toCookieManager ∧ s'.assertionFailed = false := by
  have same : s.unfailed = s.toCookieManager := by rw [unfailed, ← ok]
  rw [checked, same] at h
  split_ifs at h with failed
  cases h
  exact ⟨rfl, by simpa using failed⟩

/-- The turns of `setCookies` are `setCookies`. -/
theorem run_treats {policy : BackingStoreRemovalPolicy} {filter : CookieFilter} {currentTime : ℚ}
    {cookies : List ParsedCookie} (ok : s.assertionFailed = false)
    (h : Runs.run (step p) s (cookies.map fun c => .treat c policy filter currentTime) = some s') :
    s'.toCookieManager =
      (s.toCookieManager.checkAndTreatCookies policy filter currentTime cookies).1 := by
  induction cookies generalizing s with
  | nil =>
    cases h
    rfl
  | cons c cookies ih =>
    rw [List.map_cons, Runs.run_cons] at h
    obtain ⟨s₁, h₁, h⟩ := Option.bind_eq_some_iff.mp h
    rw [step] at h₁
    obtain ⟨treated, ok₁⟩ := checked_eq_some ok h₁
    rw [ih ok₁ h, CookieManager.checkAndTreatCookies, treated]

theorem run_setCookies {url : URL} {value : Text} {filter : CookieFilter} {currentTime : ℚ}
    (ok : s.assertionFailed = false)
    (h : Runs.run (step p) s (s.turns p (.setCookies url value filter currentTime)) = some s') :
    s'.toCookieManager = (s.setCookies p url value filter currentTime).1 :=
  run_treats ok h

theorem run_getCookie {url : URL} {filter : CookieFilter} {currentTime : ℚ}
    (ok : s.assertionFailed = false)
    (h : Runs.run (step p) s (s.turns p (.getCookie url filter currentTime)) = some s') :
    s'.toCookieManager = (s.getCookie p url filter currentTime).2 := by
  rw [turns, Runs.run_cons] at h
  obtain ⟨s₁, h₁, h⟩ := Option.bind_eq_some_iff.mp h
  cases h
  rw [step] at h₁
  exact (checked_eq_some ok h₁).1

/-- There is room for the cookies: a turn that adds a persistent cookie leaves fewer than
`65536`. -/
def Few (s : SyncedManager) : Turn → Prop
  | .treat c _ filter currentTime =>
    s.Grows c filter currentTime → s.persistentCount + 1 < 65536
  | _ => True

/-- A cookie does not replace one of the other kind unless the backing store is changed. -/
def CountsReplacements (s : SyncedManager) : Turn → Prop
  | .treat c policy filter currentTime => s.CountsReplacement c policy filter currentTime
  | _ => True

def Exact (s : SyncedManager) : Prop := s.CountExact

theorem step_of_countsReplacements {turn : Turn} (exact : s.Exact) (few : s.Few turn) :
    ∃ s', s.step p turn = some s' ∧ (s'.Exact ↔ s.CountsReplacements turn) := by
  cases turn with
  | treat c policy filter currentTime =>
    obtain ⟨asserted, iff⟩ := @CookieManager.checkAndTreatCookie_spec s.unfailed c policy filter
      currentTime exact few
    exact ⟨_, @checked_of_unfailed s (fun m => (m.checkAndTreatCookie ..).1) asserted, iff⟩
  | lookup url filter currentTime =>
    obtain ⟨asserted, exact'⟩ := @CookieManager.getRawCookies_spec s.unfailed filter currentTime
      exact p url
    exact ⟨_, @checked_of_unfailed s (fun m => (m.getRawCookies p ..).2) asserted,
      iff_of_true exact' trivial⟩
  | removeAll =>
    exact ⟨_, rfl, iff_of_true (CookieManager.removeAllCookies_countExact _) trivial⟩
  | setPrivateMode privateMode => exact ⟨_, rfl, iff_of_true exact trivial⟩
  | setSynced => exact ⟨_, rfl, iff_of_true exact trivial⟩

/-- The calls of a manager that begins without cookies keep the counter right after every cookie,
and never call `removedCookie` while it is zero, exactly if no session cookie and persistent cookie
replace each other under a policy that leaves the backing store alone. -/
theorem counter_exact_iff (s : SyncedManager) (fresh : s.managerMap = ∅) (zero : s.count = 0)
    (calls : List Call) (few : Runs.Every (step p) Few s (s.turnsOf p calls)) :
    Runs.Always (step p) Exact s (s.turnsOf p calls) ↔
      Runs.Every (step p) CountsReplacements s (s.turnsOf p calls) := by
  have exact : s.Exact := by
    rw [Exact, CookieManager.CountExact, zero, CookieManager.persistentCount, CookieManager.cookies,
      CookieManager.store, fresh]
    rfl
  refine Runs.always_iff_every (I := Exact) id (fun exact few counts => ?_)
    (fun exact few violated eq => ?_) exact few
  · obtain ⟨s', eq, iff⟩ := step_of_countsReplacements exact few
    exact ⟨s', eq, iff.mpr counts⟩
  · obtain ⟨s', eq', iff⟩ := step_of_countsReplacements exact few
    obtain rfl := Option.some.inj (eq'.symm.trans eq)
    exact fun exact' => violated (iff.mp exact')

instance (s : SyncedManager) (turn : Turn) : Decidable (s.Few turn) :=
  match turn with
  | .treat c _ filter currentTime =>
    inferInstanceAs (Decidable (s.Grows c filter currentTime → s.persistentCount + 1 < 65536))
  | .lookup .. | .removeAll | .setPrivateMode _ | .setSynced => isTrue trivial

instance (s : SyncedManager) (turn : Turn) : Decidable (s.CountsReplacements turn) :=
  match turn with
  | .treat c policy filter currentTime =>
    inferInstanceAs (Decidable (s.CountsReplacement c policy filter currentTime))
  | .lookup .. | .removeAll | .setPrivateMode _ | .setSynced => isTrue trivial

/-- A manager without cookies. -/
def start : SyncedManager := ⟨.new, false⟩

/-- The cookie `a` of the host `a.b`, as the database holds it. -/
def savedCookie : ParsedCookie :=
  { ParsedCookie.init 0 with
    name := text "a", domain := text ".a.b", protocol := text "http", path := text "/",
    expiry := 9, isSession := false }

/-- The database is loaded, and then a response changes its cookie to a session cookie. -/
theorem counter_exact_after_load :
    Runs.Always (step asciiPlatform) Exact start (start.turnsOf asciiPlatform
      [.getBackingStoreCookies [savedCookie] 1,
        .setCookies (CookieManager.httpURL "a.b" "/") (text "a=1") .withHttpOnlyCookies 2]) :=
  (counter_exact_iff start rfl rfl _ (by decide +kernel)).mpr (by decide +kernel)

/-- In private mode a persistent cookie replaces a session cookie of the same name: the counter is
zero with one persistent cookie, and removing that cookie calls `removedCookie` with zero. -/
theorem counter_wrong_in_privateMode :
    let p := { asciiPlatform with toIntStrict := fun _ => some 9 }
    let replace : List Call :=
      [.setPrivateMode true [] 1,
        .setCookies (CookieManager.httpURL "a.b" "/") (text "a=1") .withHttpOnlyCookies 2,
        .setCookies (CookieManager.httpURL "a.b" "/") (text "a=1;Max-Age=9") .withHttpOnlyCookies 3]
    (Runs.run (step p) start (start.turnsOf p replace)).map
        (fun s => (s.count, s.persistentCount)) = some (0, 1) ∧
      (Runs.run (step p) start (start.turnsOf p
        (replace ++ [.removeCookiesFromDomain (CookieManager.httpURL "a.b" "/") 4]))).isNone := by
  decide +kernel

end SyncedManager

end Odyssey.Network.Cookies
