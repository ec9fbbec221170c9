import Odyssey.Lib.Runs
import Odyssey.Network.Cookies.HiddenValues

/-!
# Scripts and HttpOnly cookies

`setCookiesFromDOM` uses the default filter of `CookieManager::setCookies`, which lets a script
create, replace and remove HttpOnly cookies. They are kept as long as no cookie of a script is
HttpOnly or has the name, the path and the map of an HttpOnly cookie. What a script can read never
depends on the values of HttpOnly cookies.
-/
namespace Odyssey.Network.Cookies

open WTF Lib CookieMap

namespace CookieManager

variable {m : CookieManager} {c : ParsedCookie} {policy : BackingStoreRemovalPolicy}
  {filter : CookieFilter} {currentTime : ℚ}

/-! ## HttpOnly cookies are kept -/

def httpOnly (cookies : List ParsedCookie) : List ParsedCookie := cookies.filter (·.isHttpOnly)

/-- The cookie is not stored as an HttpOnly cookie and stands for no HttpOnly cookie of its map. -/
structure Harmless (m : CookieManager) (c : ParsedCookie) (currentTime : ℚ) : Prop where
  notHttpOnly : IsLive c currentTime → c.isHttpOnly = false
  key : ∀ c' ∈ (m.mapFor c).cookieVector, sameKey c c' = true → c'.isHttpOnly = false

/-- A harmless cookie only makes HttpOnly cookies leave by the limit. -/
theorem httpOnly_perm_of_mapChange {live : Prop} {map : CookieMap} {treatment : Treatment}
    {cookies : List ParsedCookie} {count : CookieManager → CookieManager}
    {requests : List BackingStoreRequest} {evicted : Option ParsedCookie}
    (h : MapChange live policy filter map c treatment cookies count requests evicted)
    (hlive : live → c.isHttpOnly = false)
    (hkey : ∀ c' ∈ map.cookieVector, sameKey c c' = true → c'.isHttpOnly = false) :
    (httpOnly map.cookieVector).Perm (httpOnly cookies ++ httpOnly evicted.toList) := by
  -- the cookie with the name and path of the new one is not HttpOnly
  have others {old : ParsedCookie} (found : map.cookieVector.find? (sameKey c) = some old) :
      (httpOnly map.cookieVector).Perm (httpOnly (map.cookieVector.eraseP (sameKey c))) := by
    have hold := hkey old (List.mem_of_find?_eq_some found) (List.find?_some found)
    have := (perm_eraseP found).filter (·.isHttpOnly)
    rwa [List.filter_cons_of_neg (by simp [hold])] at this
  cases h with
  | ignored => simp [httpOnly]
  | expires => simp [httpOnly]
  | removes _ found => simpa [httpOnly] using others found
  | replaces l found perm =>
    have hrest := perm.filter (·.isHttpOnly)
    rw [List.filter_cons_of_neg (by simp [hlive l])] at hrest
    simpa [httpOnly] using (others found).trans hrest.symm
  | adds l => simp [httpOnly, hlive l]
  | evicts l _ _ perm =>
    have := perm.filter (·.isHttpOnly)
    rw [List.filter_append, List.filter_cons_of_neg (by simp [hlive l]), List.filter_nil,
      List.append_nil, ← List.singleton_append, List.filter_append] at this
    exact this.trans List.perm_append_comm

theorem httpOnly_checkAndTreatCookie (h : m.Harmless c currentTime) :
    (httpOnly m.cookies).Perm
      (httpOnly (m.checkAndTreatCookie c policy filter currentTime).1.cookies ++
        httpOnly (m.checkAndTreatCookie c policy filter currentTime).2.toList) := by
  obtain ⟨cookies, count, requests, hchange, hrefills, -⟩ :=
    m.treats_checkAndTreatCookie c policy filter currentTime
  obtain ⟨rest, hrest, hrest'⟩ := hrefills.perm
  have hmap := httpOnly_perm_of_mapChange hchange h.notHttpOnly h.key
  refine (hrest.filter _).trans ?_
  refine List.Perm.trans ?_ ((hrest'.filter (·.isHttpOnly)).append_right _).symm
  rw [List.filter_append, List.filter_append, List.append_assoc]
  refine (hmap.append_right _).trans ?_
  rw [List.append_assoc]
  exact List.perm_append_comm.append_left _

/-- Every cookie is harmless when its turn comes. -/
def HarmlessCookies (policy : BackingStoreRemovalPolicy) (filter : CookieFilter) (currentTime : ℚ) :
    CookieManager → List ParsedCookie → Prop :=
  Runs.Every (fun m c => some (m.checkAndTreatCookie c policy filter currentTime).1)
    fun m c => m.Harmless c currentTime

theorem httpOnly_checkAndTreatCookies {cookies : List ParsedCookie}
    (h : HarmlessCookies policy filter currentTime m cookies) :
    (httpOnly m.cookies).Perm
      (httpOnly (m.checkAndTreatCookies policy filter currentTime cookies).1.cookies ++
        httpOnly (m.checkAndTreatCookies policy filter currentTime cookies).2) := by
  induction cookies generalizing m with
  | nil => simp [checkAndTreatCookies, httpOnly]
  | cons c cookies ih =>
    refine (httpOnly_checkAndTreatCookie h.1).trans (((ih (h.2 _ rfl)).append_right _).trans ?_)
    simp only [checkAndTreatCookies, httpOnly, List.filter_append, List.append_assoc]
    exact List.perm_append_comm.append_left _

end CookieManager

/-! ## Runs of a script -/

open CookieManager

/-- A call of `setCookiesFromDOM`. -/
structure DOMCall where
  url : URL
  value : Text
  currentTime : ℚ

/-- The manager after some calls, and the cookies that had to leave because of the limit. -/
def runFromDOM (p : Platform) (m : CookieManager) : List DOMCall → CookieManager × List ParsedCookie
  | [] => (m, [])
  | call :: calls =>
    let (m, evicted) := setCookiesFromDOM p m call.url call.value call.currentTime
    let (m, evicted') := runFromDOM p m calls
    (m, evicted ++ evicted')

/-- No cookie of the calls is stored as an HttpOnly cookie or stands for one. -/
def HarmlessCalls (p : Platform) : CookieManager → List DOMCall → Prop :=
  Runs.Every (fun m call => some (setCookiesFromDOM p m call.url call.value call.currentTime).1)
    fun m call => HarmlessCookies
      (if m.privateMode then .doNotRemoveFromBackingStore else .removeFromBackingStore)
      .withHttpOnlyCookies call.currentTime m
      ((CookieParser.new call.url).parse p call.value call.currentTime)

variable {p : Platform} {m m' : CookieManager} {calls : List DOMCall}

theorem httpOnly_runFromDOM (h : HarmlessCalls p m calls) :
    (httpOnly m.cookies).Perm (httpOnly (runFromDOM p m calls).1.cookies ++
      httpOnly (runFromDOM p m calls).2) := by
  induction calls generalizing m with
  | nil => simp [runFromDOM, httpOnly]
  | cons call calls ih =>
    refine (httpOnly_checkAndTreatCookies h.1).trans (((ih (h.2 _ rfl)).append_right _).trans ?_)
    simp only [runFromDOM, httpOnly, List.filter_append, List.append_assoc]
    exact List.perm_append_comm.append_left _

/-- Stores that differ only in the values of HttpOnly cookies stay so. -/
theorem runFromDOM_hide (h : m.hide = m'.hide) :
    (runFromDOM p m calls).1.hide = (runFromDOM p m' calls).1.hide := by
  induction calls generalizing m m' with
  | nil => exact h
  | cons call calls ih =>
    have hcall : (setCookiesFromDOM p m call.url call.value call.currentTime).1.hide =
        (setCookiesFromDOM p m' call.url call.value call.currentTime).1.hide := by
      rw [setCookiesFromDOM_hide, setCookiesFromDOM_hide, h]
    exact ih hcall

/-- During harmless calls HttpOnly cookies only leave the store by the limit and none is created;
and what scripts read after any calls does not depend on the values of HttpOnly cookies. -/
theorem setCookiesFromDOM_keeps_httpOnly (p : Platform) (m : CookieManager) (calls : List DOMCall) :
    (HarmlessCalls p m calls →
      (httpOnly m.cookies).Perm (httpOnly (runFromDOM p m calls).1.cookies ++
        httpOnly (runFromDOM p m calls).2)) ∧
    ∀ m' : CookieManager, m.hide = m'.hide → ∀ url currentTime,
      (cookiesForDOM p (runFromDOM p m calls).1 url currentTime).1 =
        (cookiesForDOM p (runFromDOM p m' calls).1 url currentTime).1 := by
  refine ⟨httpOnly_runFromDOM, fun m' hm' url currentTime => ?_⟩
  rw [← cookiesForDOM_hide, runFromDOM_hide hm', cookiesForDOM_hide]

/-- The page `http://a.b/`. -/
def page : URL := ⟨text "http://a.b/", true, text "http", text "a.b", text "/", 10, 11⟩

/-- A store with an HttpOnly cookie `s` of the page. -/
def sessionStore (value : Text) : CookieManager :=
  (CookieManager.new.setCookies asciiPlatform page (text "s=" ++ value ++ text "; HttpOnly")
    .withHttpOnlyCookies 0).1

theorem sessionStore_hide : (sessionStore (text "1")).hide = (sessionStore (text "3")).hide := by
  have hparse : ((CookieParser.new page).parse asciiPlatform
        (text "s=" ++ text "1" ++ text "; HttpOnly") 0).map (·.hide) =
      ((CookieParser.new page).parse asciiPlatform
        (text "s=" ++ text "3" ++ text "; HttpOnly") 0).map (·.hide) := by decide +kernel
  have h1 := setCookiesFromDOM_hide asciiPlatform .new page
    (text "s=" ++ text "1" ++ text "; HttpOnly") 0
  have h3 := setCookiesFromDOM_hide asciiPlatform .new page
    (text "s=" ++ text "3" ++ text "; HttpOnly") 0
  rw [hparse] at h1
  exact h1.trans h3.symm

theorem setCookiesFromDOM_other_name :
    (httpOnly (sessionStore (text "1")).cookies).Perm
      (httpOnly (runFromDOM asciiPlatform (sessionStore (text "1"))
          [⟨page, text "t=2", 1⟩]).1.cookies ++
        httpOnly (runFromDOM asciiPlatform (sessionStore (text "1")) [⟨page, text "t=2", 1⟩]).2) ∧
    (cookiesForDOM asciiPlatform (runFromDOM asciiPlatform (sessionStore (text "1"))
        [⟨page, text "t=2", 1⟩]).1 page 2).1 =
      (cookiesForDOM asciiPlatform (runFromDOM asciiPlatform (sessionStore (text "3"))
        [⟨page, text "t=2", 1⟩]).1 page 2).1 := by
  have h := setCookiesFromDOM_keeps_httpOnly asciiPlatform (sessionStore (text "1"))
    [⟨page, text "t=2", 1⟩]
  refine ⟨h.1 ⟨⟨⟨by decide +kernel, by decide +kernel⟩, fun _ _ => trivial⟩, fun _ _ => trivial⟩,
    h.2 _ sessionStore_hide _ _⟩

/-- A script removes an HttpOnly cookie, and creates one. -/
theorem setCookiesFromDOM_touches_httpOnly :
    (httpOnly (sessionStore (text "1")).cookies).map (·.value) = [text "1"] ∧
      httpOnly (runFromDOM asciiPlatform (sessionStore (text "1"))
        [⟨page, text "s=2", 1⟩]).1.cookies = [] ∧
      (runFromDOM asciiPlatform (sessionStore (text "1")) [⟨page, text "s=2", 1⟩]).2 = [] ∧
      (httpOnly (runFromDOM asciiPlatform CookieManager.new
        [⟨page, text "s=2; HttpOnly", 1⟩]).1.cookies).map (·.value) = [text "2"] := by
  decide +kernel

end Odyssey.Network.Cookies
