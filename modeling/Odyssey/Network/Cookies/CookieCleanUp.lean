import Odyssey.Network.Cookies.CookieDatabase

/-!
# The clean-up of the cookie store

When there are more than 6000 persistent cookies, a timer is started, after which some cookies are
taken from the database and expired. How many are expired depends on the counter, and how many the
database returns on the table at that time.
-/

namespace Odyssey.Network.Cookies

open WTF Lib CookieMap

namespace CookieMap

theorem filter_eraseP_self {α : Type*} (p : α → Bool) (l : List α) :
    (l.eraseP p).filter p = (l.filter p).tail := by
  induction l with
  | nil => rfl
  | cons a l ih =>
    rw [List.eraseP_cons, List.filter_cons]
    cases h : p a with
    | true => simp
    | false => simp [h, ih]

theorem filter_eraseP_of_disjoint {α : Type*} {p q : α → Bool} (h : ∀ a, p a = true → q a = false)
    (l : List α) : (l.eraseP p).filter q = l.filter q := by
  induction l with
  | nil => rfl
  | cons a l ih =>
    rw [List.eraseP_cons]
    cases hp : p a with
    | true => simp [h a hp]
    | false => simp [List.filter_cons, ih]

end CookieMap

namespace CookieManager

/-! ## The places of cookies -/

/-- Cookies of the scheme are not kept. -/
def ignores (m : CookieManager) (c : ParsedCookie) : Bool :=
  shouldIgnoreScheme c.protocol && !m.shouldDumpAllCookies

/-- The cookies that a cookie would replace. -/
def replacedBy (m : CookieManager) (c : ParsedCookie) : List ParsedCookie :=
  if m.ignores c then [] else (m.mapFor c).cookieVector.filter (sameKey c)

/-- The cookies have the same place in the store. -/
def samePlace (m : CookieManager) (c c' : ParsedCookie) : Bool :=
  m.storageProtocol c.protocol == m.storageProtocol c'.protocol &&
    storageLabels c == storageLabels c' && sameKey c c'

variable {m m' : CookieManager} {c c' : ParsedCookie}

theorem storageProtocol_storageProtocol (m : CookieManager) (protocol : Text) :
    m.storageProtocol (m.storageProtocol protocol) = m.storageProtocol protocol := by
  have http : text "http" ≠ text "https" ∧ text "http" ≠ text "wss" := by decide
  have ws : text "ws" ≠ text "https" ∧ text "ws" ≠ text "wss" := by decide
  unfold storageProtocol
  grind

theorem storageProtocol_insert {tree : CookieTree} {protocol : Text}
    (h : m'.managerMap = m.managerMap.insert (m.storageProtocol protocol) tree) (q : Text) :
    m'.storageProtocol q = m.storageProtocol q := by
  by_cases same : q = m.storageProtocol protocol
  · rw [same, storageProtocol_storageProtocol, storageProtocol, h, AList.lookup_insert]
    exact if_pos rfl
  · rw [storageProtocol, storageProtocol, h, AList.lookup_insert_ne same]

theorem mapFor_withMapFor {map : CookieMap} (h : m'.managerMap = m.withMapFor c map) :
    m'.mapFor c' = if m.storageProtocol c.protocol = m.storageProtocol c'.protocol ∧
      storageLabels c = storageLabels c' then map else m.mapFor c' := by
  rw [mapFor, storageProtocol_insert h, tree, h, withMapFor]
  by_cases protocol : m.storageProtocol c.protocol = m.storageProtocol c'.protocol
  · rw [protocol, AList.lookup_insert, Option.getD_some]
    by_cases labels : storageLabels c = storageLabels c'
    · rw [labels, Trie.find_alter_self, if_pos ⟨rfl, rfl⟩, Option.getD_some]
    · rw [Trie.find_alter_of_ne _ _ (Ne.symm labels), if_neg fun h => labels h.2]
      rfl
  · rw [AList.lookup_insert_ne (Ne.symm protocol), if_neg fun h => protocol h.1]
    rfl

theorem shouldIgnoreScheme_storageProtocol (m : CookieManager) (protocol : Text) :
    shouldIgnoreScheme (m.storageProtocol protocol) = shouldIgnoreScheme protocol := by
  unfold storageProtocol
  split_ifs with known https wss
  · rfl
  · rw [https]
    decide
  · rw [wss]
    decide
  · rfl

theorem samePlace_iff : m.samePlace c c' = true ↔
    (m.storageProtocol c.protocol = m.storageProtocol c'.protocol ∧
      storageLabels c = storageLabels c') ∧ sameKey c c' = true := by
  simp only [samePlace, Bool.and_eq_true, beq_iff_eq]

theorem sameKey_congr (h : sameKey c c' = true) : sameKey c' = sameKey c := by
  simp only [sameKey, Bool.and_eq_true, beq_iff_eq] at h
  funext c''
  rw [sameKey, sameKey, h.1, h.2]

theorem ignores_congr (h : m.storageProtocol c.protocol = m.storageProtocol c'.protocol) :
    m.ignores c' = m.ignores c := by
  rw [ignores, ignores, ← shouldIgnoreScheme_storageProtocol m, ← h,
    shouldIgnoreScheme_storageProtocol]

/-! ## A cookie that is forced to expire -/

/-- `m'` is `m` without the first of the cookies that a cookie would replace. -/
structure Takes (m : CookieManager) (c : ParsedCookie) (m' : CookieManager) : Prop where
  replacedBy : ∀ c', m'.replacedBy c' =
    if m.samePlace c c' then (m.replacedBy c').tail else m.replacedBy c'
  samePlace : ∀ c' c'', m'.samePlace c' c'' = m.samePlace c' c''
  count : m'.count = m.count - (((m.replacedBy c).take 1).countP isPersistent).toUInt16
  backingStore : m'.backingStore =
    m.backingStore ++ (((m.replacedBy c).take 1).filter isPersistent).map .remove

section Refills

variable {cookies : List ParsedCookie}

theorem Refills.storageProtocol (h : m.Refills c cookies m') (q : Text) :
    m'.storageProtocol q = m.storageProtocol q := by
  rcases h with ⟨-, same | inserted⟩ | ⟨map, -, put⟩
  · rw [CookieManager.storageProtocol, CookieManager.storageProtocol, same]
  · exact storageProtocol_insert inserted q
  · exact storageProtocol_insert put q

/-- The cookies of all maps. -/
theorem Refills.vector (h : m.Refills c cookies m') (c' : ParsedCookie) :
    (m'.mapFor c').cookieVector = if m.storageProtocol c.protocol = m.storageProtocol c'.protocol ∧
      storageLabels c = storageLabels c' then cookies else (m.mapFor c').cookieVector := by
  rcases h with ⟨rfl, maps⟩ | ⟨map, rfl, put⟩
  · have tree :
      m'.tree (m.storageProtocol c'.protocol) = m.tree (m.storageProtocol c'.protocol) := by
      rcases maps with same | inserted
      · rw [CookieManager.tree, CookieManager.tree, same]
      · rw [CookieManager.tree, CookieManager.tree, inserted]
        by_cases protocol : m.storageProtocol c'.protocol = m.storageProtocol c.protocol
        · rw [protocol, AList.lookup_insert, Option.getD_some]
          rfl
        · rw [AList.lookup_insert_ne protocol]
    have same : m'.mapFor c' = m.mapFor c' := by
      rw [mapFor, Refills.storageProtocol (.inl ⟨rfl, maps⟩), tree]
      rfl
    rw [same]
    split_ifs with place
    · rw [mapFor, mapFor, place.1, place.2]
    · rfl
  · rw [mapFor_withMapFor put]
    split_ifs <;> rfl

/-- The first of the cookies that would be replaced is gone, if there are such cookies. -/
theorem Refills.replacedBy (h : m.Refills c cookies m')
    (dump : m'.shouldDumpAllCookies = m.shouldDumpAllCookies)
    (taken : m.ignores c = true ∨ cookies = (m.mapFor c).cookieVector.eraseP (sameKey c))
    (c' : ParsedCookie) :
    m'.replacedBy c' = if m.samePlace c c' then (m.replacedBy c').tail else m.replacedBy c' := by
  have ignored : m'.ignores c' = m.ignores c' := by rw [ignores, ignores, dump]
  rw [CookieManager.replacedBy, ignored, h.vector]
  by_cases place : m.storageProtocol c.protocol = m.storageProtocol c'.protocol ∧
      storageLabels c = storageLabels c'
  · have map_eq : m.mapFor c' = m.mapFor c := by rw [mapFor, mapFor, place.1, place.2]
    rw [if_pos place, CookieManager.replacedBy, map_eq, ignores_congr place.1]
    rcases taken with ignores | erased
    · simp [ignores]
    rw [erased]
    by_cases key : sameKey c c' = true
    · rw [if_pos (samePlace_iff.mpr ⟨place, key⟩), sameKey_congr key, filter_eraseP_self]
      split_ifs <;> rfl
    · rw [if_neg fun h => key (samePlace_iff.mp h).2, filter_eraseP_of_disjoint fun a h => ?_]
      rw [← Bool.not_eq_true]
      intro h'
      exact key (by rw [← sameKey_congr h, sameKey_congr h']; simp [sameKey])
  · rw [if_neg place, if_neg fun h => place (samePlace_iff.mp h).1]
    rfl

end Refills

/-- `m'` is what is left of `m` after earlier cookies have been forced to expire. -/
structure Left (m : CookieManager) (earlier : List ParsedCookie) (m' : CookieManager) : Prop where
  replacedBy : ∀ c, m'.replacedBy c = (m.replacedBy c).drop (earlier.countP (m.samePlace · c))
  samePlace : ∀ c c', m'.samePlace c c' = m.samePlace c c'

theorem Left.refl (m : CookieManager) : Left m [] m := ⟨fun _ => rfl, fun _ _ => rfl⟩

theorem Left.takes {earlier : List ParsedCookie} {m'' : CookieManager} (left : Left m earlier m')
    (takes : Takes m' c m'') : Left m (c :: earlier) m'' := by
  refine ⟨fun c' => ?_, fun c' c'' => ?_⟩
  · rw [takes.replacedBy, left.samePlace, left.replacedBy, List.countP_cons]
    split_ifs
    · rw [List.tail_drop]
    · rfl
  · rw [takes.samePlace, left.samePlace]

end CookieManager

/-! ## The clean-up -/

/-- The manager with its database. `saves` says that cookies are saved and that no private window is
open. -/
structure CookieStorage extends SyncedManager where
  database : CookieDatabase
  saves : Bool

namespace CookieStorage

open CookieManager CookieDatabase

/-- Treat a cookie and send the changes to the database. -/
def treat (s : CookieStorage) (c : ParsedCookie) (policy : BackingStoreRemovalPolicy)
    (filter : CookieFilter) (currentTime : ℚ) : CookieStorage :=
  let m := (s.checkAndTreatCookie c policy filter currentTime).1
  { s with
    toCookieManager := m
    database := (m.backingStore.drop s.backingStore.length).foldl (addToChangeQueue s.saves)
      s.database }

/-- `removeAllCookies`, which also clears the table. -/
def removeAllCookies (s : CookieStorage) : CookieStorage :=
  { s with
    toCookieManager := s.toCookieManager.removeAllCookies
    database := s.database.removeAll s.saves }

variable {s : CookieStorage}

end CookieStorage

end Odyssey.Network.Cookies
