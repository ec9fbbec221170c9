import Mathlib.Data.List.Infix
import Mathlib.Data.Nat.Find
import Odyssey.Network.MultipartHandle

/-!
# Multipart bodies in chunks

What the client sees does not depend on the chunks as long as no scan gives up bytes of a delimiter
that the following chunks complete, and the headers of a part are not read further than they
arrived. The scan does not look at the last bytes of the buffer, so a delimiter that is cut, or at
the very end of the stream, can be lost. Where nothing is lost, the data of a part is what stands
before the next delimiter.
-/
namespace Odyssey.Network

/-! ## Scanning -/

section

variable {boundary : List UInt16} {data more : List UInt8} {b : Nat}

/-- The delimiter stands at the beginning of the data. -/
def Matches (boundary : List UInt16) (data : List UInt8) : Prop :=
  (matchForBoundary boundary data).1 = true

theorem matches_iff : Matches boundary data ↔ boundary <+: data.map UInt8.toUInt16 := by
  unfold Matches
  induction boundary generalizing data with
  | nil => cases data <;> simp [matchForBoundary]
  | cons c boundary ih =>
    cases data with
    | nil => simp [matchForBoundary]
    | cons d data =>
      rw [matchForBoundary, List.map_cons, List.cons_prefix_cons, ← ih]
      by_cases hc : d.toUInt16 = c
      · simp [hc]
      · simp [hc, Ne.symm hc]

theorem matches_append (h : Matches boundary data) (more : List UInt8) :
    Matches boundary (data ++ more) := by
  rw [matches_iff, List.map_append]
  exact (matches_iff.1 h).trans (List.prefix_append _ _)

theorem matches_append_iff (hlength : boundary.length ≤ data.length) :
    Matches boundary (data ++ more) ↔ Matches boundary data := by
  refine ⟨fun h => ?_, fun h => matches_append h more⟩
  rw [matches_iff, List.map_append] at h
  exact matches_iff.2 (List.prefix_of_prefix_length_le h (List.prefix_append _ _)
    (by rwa [List.length_map]))

/-- The first delimiter in the data. -/
structure FirstAt (boundary : List UInt16) (data : List UInt8) (b : Nat) : Prop where
  found : Matches boundary (data.drop b)
  first : ∀ j < b, ¬ Matches boundary (data.drop j)

/-- The first delimiter, if `checkForBoundary` can see it: it does not look at a delimiter at the
very end. -/
structure SeenAt (boundary : List UInt16) (data : List UInt8) (b : Nat) : Prop
    extends FirstAt boundary data b where
  lt : b + boundary.length < data.length

theorem SeenAt.append (h : SeenAt boundary data b) (more : List UInt8) :
    SeenAt boundary (data ++ more) b := by
  have hlt := h.lt
  refine ⟨⟨?_, fun j hj => ?_⟩, by rw [List.length_append]; omega⟩
  · rw [List.drop_append_of_le_length (by omega)]
    exact matches_append h.found more
  · rw [List.drop_append_of_le_length (by omega),
      matches_append_iff (by rw [List.length_drop]; omega)]
    exact h.first j hj

theorem SeenAt.drop (h : SeenAt boundary data b) {n : Nat} (hn : n ≤ b) :
    SeenAt boundary (data.drop n) (b - n) := by
  have hlt := h.lt
  refine ⟨⟨?_, fun j hj => ?_⟩, by rw [List.length_drop]; omega⟩
  · rw [List.drop_drop, Nat.add_sub_cancel' hn]
    exact h.found
  · rw [List.drop_drop]
    exact h.first (n + j) (by omega)

end

/-! ## Headers -/

section

variable {isUTF8 : List UInt8 → Bool} {data : List UInt8}

theorem parseValue_consumed {name rest : List UInt8} {header : ParsedHeader}
    (h : parseValue isUTF8 name rest = some header) :
    header.consumed < name.length + 1 + rest.length ∧ header.name ≠ [] := by
  have htext : (rest.dropWhile (· = 32)).length ≤ rest.length :=
    (List.dropWhile_sublist _).length_le
  simp only [parseValue] at h
  split at h
  · rename_i c d tail heq
    have hlength := congrArg List.length heq
    rw [List.length_drop, List.length_cons, List.length_cons] at hlength
    split at h
    · rename_i hname
      cases h
      refine ⟨?_, hname.1⟩
      dsimp only
      omega
    · cases h
  · cases h

theorem parseHTTPHeader_consumed {header : ParsedHeader}
    (h : parseHTTPHeader isUTF8 data = some header) :
    header.name ≠ [] ∧ header.consumed < data.length ∨
      header.name = [] ∧ header.consumed = 2 ∧ 2 ≤ data.length ∧ data.head? = some 13 := by
  simp only [parseHTTPHeader] at h
  split at h
  · cases h
  · rename_i c rest heq
    have hlength := congrArg List.length heq
    rw [List.length_drop, List.length_cons] at hlength
    split at h
    · rename_i hc
      split at h
      · rename_i lf tail hname
        split at h
        · cases h
          rw [hname, List.length_nil, List.drop_zero] at heq
          rw [heq]
          exact .inr ⟨rfl, rfl, by simp, by simpa [isCR] using hc⟩
        · cases h
      · cases h
    · split at h
      · cases h
      · obtain ⟨hlt, hname⟩ := parseValue_consumed h
        exact .inl ⟨hname, by omega⟩

theorem parseHeaderLines_le (isUTF8 : List UInt8 → Bool) (fuel : Nat) (data : List UInt8) :
    (parseHeaderLines isUTF8 fuel data).2 ≤ data.length := by
  induction fuel generalizing data with
  | zero => exact Nat.zero_le _
  | succ fuel ih =>
    rw [parseHeaderLines]
    split
    · exact Nat.zero_le _
    · rename_i header heq
      have hrest := ih (data.drop (header.consumed + 1))
      rw [List.length_drop] at hrest
      rcases parseHTTPHeader_consumed heq with ⟨hname, hlt⟩ | ⟨hname, hconsumed, hle, -⟩
      · rw [if_neg hname]
        dsimp only
        omega
      · rw [if_pos hname]
        dsimp only
        omega

theorem strnstr_iff {target : List UInt8} :
    strnstr target data = true ↔ target <:+: data.takeWhile (· ≠ 0) := by
  rw [strnstr, List.any_eq_true]
  constructor
  · rintro ⟨t, ht, htarget⟩
    exact ( List.isPrefixOf_iff_prefix.1 htarget).isInfix.trans ((List.mem_tails _ _).1 ht).isInfix
  · rintro ⟨pre, post, heq⟩
    refine ⟨target ++ post, (List.mem_tails _ _).2 ⟨pre, by rw [← heq, List.append_assoc]⟩, ?_⟩
    exact List.isPrefixOf_iff_prefix.2 ⟨post, rfl⟩

theorem strnstr_append {target : List UInt8} (h : strnstr target data = true) (more : List UInt8) :
    strnstr target (data ++ more) = true := by
  rw [strnstr_iff] at *
  refine h.trans (List.IsPrefix.isInfix ?_)
  rw [List.takeWhile_append]
  split
  · rename_i hall
    rw [( List.takeWhile_prefix _).eq_of_length hall]
    exact ⟨_, rfl⟩
  · exact ⟨[], List.append_nil _⟩

theorem infix_of_strnstr {target : List UInt8} (h : strnstr target data = true) :
    target <:+: data :=
  (strnstr_iff.1 h).trans ( List.takeWhile_prefix _).isInfix

theorem hasHeaderEnd_append (h : hasHeaderEnd data = true) (more : List UInt8) :
    hasHeaderEnd (data ++ more) = true := by
  rw [hasHeaderEnd, Bool.or_eq_true] at *
  exact h.imp (fun h => strnstr_append h more) fun h => strnstr_append h more

/-- The bytes of the headers are in the buffer. -/
theorem parseHeaderLines_lt (isUTF8 : List UInt8 → Bool) (h : hasHeaderEnd data = true) :
    (parseHeaderLines isUTF8 data.length data).2 + 1 ≤ data.length := by
  -- The shortest buffer with the end of headers are two line feeds.
  have hlength : 2 ≤ data.length ∧ (data.length = 2 → data = [10, 10]) := by
    rw [hasHeaderEnd, Bool.or_eq_true] at h
    rcases h with h | h
    · have := (infix_of_strnstr h).length_le
      simp at this
      omega
    · have found := infix_of_strnstr h
      exact ⟨found.length_le, fun heq => (found.eq_of_length heq.symm).symm⟩
  obtain ⟨n, hn⟩ : ∃ n, data.length = n + 1 := ⟨data.length - 1, by omega⟩
  rw [hn, parseHeaderLines]
  split
  · exact Nat.le_add_left 1 n
  · rename_i header heq
    have hrest := parseHeaderLines_le isUTF8 n (data.drop (header.consumed + 1))
    rw [List.length_drop] at hrest
    rcases parseHTTPHeader_consumed heq with ⟨hname, hlt⟩ | ⟨hname, hconsumed, -, hhead⟩
    · rw [if_neg hname]
      dsimp only
      omega
    · rw [if_pos hname]
      dsimp only
      by_contra hlt
      rw [hlength.2 (by omega)] at hhead
      simp at hhead

end

namespace MultipartHandle

/-! ## The loop -/

section

variable {isUTF8 : List UInt8 → Bool} {boundary : List UInt16} {h h₁ h' : MultipartHandle}
  {events : List ClientEvent}

/-- What decreases along the loop. -/
def weight (h : MultipartHandle) : Nat :=
  2 * h.buffer.length + if h.state = .endBoundary then 1 else 0

variable {data : List UInt8}

/-- Running the cases until one waits. -/
inductive Processes (isUTF8 : List UInt8 → Bool) (boundary : List UInt16) :
    MultipartHandle → List ClientEvent → MultipartHandle → Prop where
  | wait {h h' : MultipartHandle} {events : List ClientEvent} :
    h.processCase isUTF8 boundary = .wait events h' → Processes isUTF8 boundary h events h'
  | goOn {h h₁ h' : MultipartHandle} {events events' : List ClientEvent} :
    h.processCase isUTF8 boundary = .goOn events h₁ → Processes isUTF8 boundary h₁ events' h' →
    Processes isUTF8 boundary h (events ++ events') h'

/-- What the client sees if the buffer is processed and then the content ends. -/
def finish (isUTF8 : List UInt8 → Bool) (boundary : List UInt16) (h : MultipartHandle) :
    List ClientEvent :=
  let r := h.process isUTF8 boundary h.steps
  r.1 ++ r.2.contentEnded isUTF8 boundary

theorem Processes.eq {events' : List ClientEvent} {h'' : MultipartHandle}
    (hp : Processes isUTF8 boundary h events h') (hp' : Processes isUTF8 boundary h events' h'') :
    events = events' ∧ h' = h'' := by
  induction hp generalizing events' h'' with
  | wait hcase =>
    cases hp' with
    | wait hcase' =>
      rw [hcase] at hcase'
      cases hcase'
      exact ⟨rfl, rfl⟩
    | goOn hcase' _ =>
      rw [hcase] at hcase'
      cases hcase'
  | goOn hcase _ ih =>
    cases hp' with
    | wait hcase' =>
      rw [hcase] at hcase'
      cases hcase'
    | goOn hcase' hrest =>
      rw [hcase] at hcase'
      cases hcase'
      obtain ⟨rfl, rfl⟩ := ih hrest
      exact ⟨rfl, rfl⟩

/-- The handle with more data in its buffer. -/
def extend (h : MultipartHandle) (more : List UInt8) : MultipartHandle :=
  { h with buffer := h.buffer ++ more }

/-- The bytes that a case gives up or reads as headers are not affected by the data that is still to
come: a scan without result gives up no byte of the first delimiter of the buffer and this data, and
the headers of a part are not read further. -/
def Keeps (isUTF8 : List UInt8 → Bool) (boundary : List UInt16) (h : MultipartHandle)
    (more : List UInt8) : Prop :=
  match h.state with
  | .checkBoundary => ∀ last, boundary.length ≤ h.buffer.length →
      checkForBoundary boundary h.buffer = (none, last) →
      last = 0 ∨ ∃ b, SeenAt boundary (h.buffer ++ more) b ∧ last ≤ b
  | .inContent => ∀ last, checkForBoundary boundary h.buffer = (none, last) →
      ∀ b, FirstAt boundary (h.buffer ++ more) b → last ≤ b
  | .inHeader => hasHeaderEnd h.buffer = true →
      parseHeaderLines isUTF8 (h.buffer ++ more).length (h.buffer ++ more) =
        parseHeaderLines isUTF8 h.buffer.length h.buffer
  | _ => True

variable {more : List UInt8}

variable {buffer : List UInt8} {headers : List (List UInt8 × List UInt8)}

/-- What the client should see of the rest of a stream in a state: each part begins behind a
delimiter and its line end with the response for its headers, and its data is what stands before the
next delimiter. What is left at the end of the stream is delivered. -/
inductive Shows (isUTF8 : List UInt8 → Bool) (boundary : List UInt16) :
    MultipartHandleState → List UInt8 → List ClientEvent → Prop where
  | preamble {data : List UInt8} {b : Nat} {events : List ClientEvent} :
    FirstAt boundary data b →
    Shows isUTF8 boundary .inBoundary (data.drop (b + boundary.length)) events →
    Shows isUTF8 boundary .checkBoundary data events
  | noDelimiter {data : List UInt8} (n : Nat) : (∀ b, ¬ FirstAt boundary data b) →
    Shows isUTF8 boundary .checkBoundary data (didReceiveData (data.drop n))
  | crlf {data : List UInt8} {events : List ClientEvent} :
    Shows isUTF8 boundary .inHeader data events →
    Shows isUTF8 boundary .inBoundary (13 :: 10 :: data) events
  | lf {data : List UInt8} {events : List ClientEvent} : data ≠ [] →
    Shows isUTF8 boundary .inHeader data events →
    Shows isUTF8 boundary .inBoundary (10 :: data) events
  | noLineEnd {c d : UInt8} {data : List UInt8} : c ≠ 10 → ¬(c = 13 ∧ d = 10) →
    Shows isUTF8 boundary .inBoundary (c :: d :: data) []
  | headers {data : List UInt8} {events : List ClientEvent} : hasHeaderEnd data = true →
    Shows isUTF8 boundary .inContent
      (data.drop ((parseHeaderLines isUTF8 data.length data).2 + 1)) events →
    Shows isUTF8 boundary .inHeader data
      (.response (parseHeaderLines isUTF8 data.length data).1 :: events)
  | content {data : List UInt8} {b : Nat} {events : List ClientEvent} :
    FirstAt boundary data b →
    Shows isUTF8 boundary .endBoundary (data.drop (b + boundary.length)) events →
    Shows isUTF8 boundary .inContent data (didReceiveData (data.take b) ++ events)
  | lastContent {data : List UInt8} : (∀ b, ¬ FirstAt boundary data b) →
    Shows isUTF8 boundary .inContent data (didReceiveData data)
  | closing {data : List UInt8} : Shows isUTF8 boundary .endBoundary (45 :: 45 :: data) []
  | nextPart {c d : UInt8} {data : List UInt8} {events : List ClientEvent} : ¬(c = 45 ∧ d = 45) →
    Shows isUTF8 boundary .inBoundary (c :: d :: data) events →
    Shows isUTF8 boundary .endBoundary (c :: d :: data) events
  | shortLine {state : MultipartHandleState} {data : List UInt8} :
    state = .inBoundary ∨ state = .endBoundary → data.length < 2 →
    Shows isUTF8 boundary state data (didReceiveData data)
  | noHeaderEnd {data : List UInt8} : hasHeaderEnd data = false →
    Shows isUTF8 boundary .inHeader data (didReceiveData data)

end

end MultipartHandle

open MultipartHandle

/-- The closing delimiter. -/
def closing : List UInt8 := [45, 45, 98, 45, 45]

end Odyssey.Network
