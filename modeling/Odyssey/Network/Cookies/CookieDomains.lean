import Odyssey.Network.Cookies.CookiePairs

/-!
# Domains of cookies

The domain of a cookie is the host of the URL or a domain that is given by an attribute and with
which the host ends up to case. The parser does not tell host names from addresses, a domain may
consist of empty labels, and texts that are the same up to case may differ in lower case, so that
this is safe for some hosts only.
-/
namespace Odyssey.Network.Cookies

open WTF

/-! ## Hosts -/

def decimal (s : Text) : Nat := s.foldl (fun value c => value * 10 + (c.toNat - 48)) 0

theorem find_eq_some {s : Text} {start i : Nat} {c : UInt16} (eq : s.find c start = some i) :
    c ∈ s.drop start := by
  rw [Text.find, Option.map_eq_some_iff] at eq
  obtain ⟨k, found, -⟩ := eq
  obtain ⟨lt, here, -⟩ := List.findIdx?_eq_some_iff_getElem.mp found
  rw [beq_iff_eq] at here
  exact here ▸ List.getElem_mem lt

namespace CookieParser

variable {p : Platform} {url : URL} {s : Text} {time : ℚ}

variable {c c' : ParsedCookie}

end CookieParser

end Odyssey.Network.Cookies
