import Mathlib.Algebra.BigOperators.Group.Finset.Piecewise
import Mathlib.Data.List.TakeWhile
import Odyssey.Network.MultipartHandleCorrect
import Odyssey.WTF.UTF8

/-!
# The headers of a part

`parseHTTPHeader` stops before the line feed of a line that ends with CR and LF, and behind the line
feed of a line that ends with LF alone. The loop of `parseHeadersIfPossible` steps over one more
byte in both cases, and does not count it. So for CR and LF every header after the first leaves one
byte too many in the buffer. For LF alone the names of all headers but the first lose their first
character, and what follows the empty line is read as a header if it looks like one.
-/

namespace Odyssey.Network

open WTF

/-! ## Header maps -/

/-- How `HTTPHeaderMap` compares names. Case is folded unit by unit, so names with the same key have
the same length. -/
structure HeaderNames (Key : Type) where
  key : Text → Key
  length : Key → Nat
  length_key : ∀ name, length (key name) = name.length

/-- `HTTPHeaderMap`, as what `get` finds for each key. -/
structure HTTPHeaderMap (Key : Type) where
  get : Key → Option Text

/-- `String::fromUTF8` of bytes that it accepts. -/
def decodeUTF8 (bytes : List UInt8) : Text := (UTF8.fromUTF8 bytes).getD []

def isUTF8 (bytes : List UInt8) : Bool := (UTF8.fromUTF8 bytes).isSome

section Maps

variable {Key : Type} [DecidableEq Key] (names : HeaderNames Key)

/-- What `add` leaves under the key of the name. -/
def combine (value : Text) : Option Text → Text
  | none => value
  | some old => old ++ text ", " ++ value

def HTTPHeaderMap.add (map : HTTPHeaderMap Key) (name value : Text) : HTTPHeaderMap Key where
  get k := if k = names.key name then some (combine value (map.get k)) else map.get k

def HTTPHeaderMap.empty : HTTPHeaderMap Key where
  get _ := none

/-- The call of `add` for a header. -/
def HTTPHeaderMap.addHeader (map : HTTPHeaderMap Key) (header : List UInt8 × List UInt8) :
    HTTPHeaderMap Key :=
  map.add names (decodeUTF8 header.1) (decodeUTF8 header.2)

/-- The map after the calls for a list of headers. -/
def headerMap (headers : List (List UInt8 × List UInt8)) : HTTPHeaderMap Key :=
  headers.foldl (HTTPHeaderMap.addHeader names) .empty

/-- The length of a combined value, with a separator for each of the values. -/
def size : Option Text → Nat
  | none => 0
  | some value => value.length + 2

def headerKey (header : List UInt8 × List UInt8) : Key := names.key (decodeUTF8 header.1)

def headerSize (header : List UInt8 × List UInt8) : Nat := (decodeUTF8 header.2).length + 2

theorem size_combine (value : Text) (old : Option Text) :
    size (some (combine value old)) = size old + (value.length + 2) := by
  have separator : (text ", ").length = 2 := by decide
  cases old with
  | none => exact (Nat.zero_add _).symm
  | some old =>
    simp only [size, combine, List.length_append, separator]
    omega

theorem size_foldl (headers : List (List UInt8 × List UInt8)) (map : HTTPHeaderMap Key) (k : Key) :
    size ((headers.foldl (HTTPHeaderMap.addHeader names) map).get k) =
      size (map.get k) + ((headers.filter (headerKey names · = k)).map headerSize).sum := by
  induction headers generalizing map with
  | nil => rfl
  | cons header headers ih =>
    rw [List.foldl_cons, ih, List.filter_cons]
    by_cases hk : headerKey names header = k
    · have added : (map.addHeader names header).get k =
          some (combine (decodeUTF8 header.2) (map.get k)) := if_pos hk.symm
      rw [added, size_combine, if_pos (decide_eq_true hk), List.map_cons, List.sum_cons]
      exact Nat.add_assoc _ (headerSize header) _
    · have added : (map.addHeader names header).get k = map.get k := if_neg (Ne.symm hk)
      rw [added, if_neg (by simpa using hk)]

/-- A sum over a list, by the keys of its elements. -/
theorem sum_by_key {α : Type} (κ : α → Key) (w : α → Nat) (f : Key → Nat) {K : Finset Key}
    {l : List α} (hK : ∀ x ∈ l, κ x ∈ K) :
    (l.map fun x => f (κ x) * w x).sum =
      ∑ k ∈ K, f k * ((l.filter (κ · = k)).map w).sum := by
  induction l with
  | nil => simp
  | cons x l ih =>
    have fiber (k : Key) : f k * (((x :: l).filter (κ · = k)).map w).sum =
        (if κ x = k then f k * w x else 0) + f k * ((l.filter (κ · = k)).map w).sum := by
      rw [List.filter_cons]
      by_cases hk : κ x = k
      · simp [hk, Nat.mul_add]
      · simp [hk]
    rw [List.map_cons, List.sum_cons, ih fun y hy => hK y (List.mem_cons_of_mem _ hy),
      Finset.sum_congr rfl fun k _ => fiber k, Finset.sum_add_distrib, Finset.sum_ite_eq,
      if_pos (hK x List.mem_cons_self)]

/-- Lists of headers with the same map have the same sum of sizes, also with a weight that depends
on the key. -/
theorem sum_eq_of_headerMap_eq {a b : List (List UInt8 × List UInt8)}
    (h : headerMap names a = headerMap names b) (f : Key → Nat) :
    (a.map fun x => f (headerKey names x) * headerSize x).sum =
      (b.map fun x => f (headerKey names x) * headerSize x).sum := by
  have fibers (k : Key) : ((a.filter (headerKey names · = k)).map headerSize).sum =
      ((b.filter (headerKey names · = k)).map headerSize).sum := by
    have sizes := congrArg (fun map => size (map.get k)) h
    rw [headerMap, headerMap, size_foldl, size_foldl] at sizes
    exact Nat.add_left_cancel sizes
  have mem (x : List UInt8 × List UInt8) (hx : x ∈ a ++ b) :
      headerKey names x ∈ ((a ++ b).map (headerKey names)).toFinset :=
    List.mem_toFinset.mpr (List.mem_map_of_mem hx)
  rw [sum_by_key _ _ f fun x hx => mem x (List.mem_append_left b hx),
    sum_by_key _ _ f fun x hx => mem x (List.mem_append_right a hx)]
  exact Finset.sum_congr rfl fun k _ => by rw [fibers]

end Maps

/-! ## Lines -/

/-- A well-formed header line, without its ending. -/
structure HeaderLine where
  name : List UInt8
  spaces : Nat
  value : List UInt8
  name_ne_nil : name ≠ []
  isASCII_of_mem : ∀ c ∈ name, UTF8.isASCII c = true
  ne_of_mem_name : ∀ c ∈ name, c ≠ 0 ∧ c ≠ 10 ∧ c ≠ 13 ∧ c ≠ 58
  ne_of_mem_value : ∀ c ∈ value, c ≠ 0 ∧ c ≠ 10 ∧ c ≠ 13
  head_value : value.head? ≠ some 32
  isUTF8_value : isUTF8 value = true

inductive LineEnding where
  | crlf
  | lf
deriving DecidableEq, Repr

def LineEnding.bytes : LineEnding → List UInt8
  | .crlf => [13, 10]
  | .lf => [10]

namespace HeaderLine

def field (line : HeaderLine) : List UInt8 × List UInt8 := (line.name, line.value)

/-- The line with another name. -/
def textWith (line : HeaderLine) (name tail : List UInt8) : List UInt8 :=
  name ++ 58 :: (List.replicate line.spaces 32 ++ (line.value ++ tail))

/-- The lines with their endings, and what follows. -/
def lines (ending : LineEnding) (rest : List UInt8) : List HeaderLine → List UInt8
  | [] => rest
  | line :: more => line.textWith line.name (ending.bytes ++ lines ending rest more)

/-- The header block of a part and what follows it. -/
def block (ending : LineEnding) (headers : List HeaderLine) (rest : List UInt8) : List UInt8 :=
  lines ending (ending.bytes ++ rest) headers

/-- The length of the line without its ending. -/
def length (line : HeaderLine) : Nat := line.name.length + 1 + line.spaces + line.value.length

theorem length_textWith (line : HeaderLine) (name tail : List UInt8) :
    (line.textWith name tail).length =
      name.length + 1 + line.spaces + line.value.length + tail.length := by
  simp only [textWith, List.length_append, List.length_cons, List.length_replicate]
  omega

theorem takeWhile_append_cons {p : UInt8 → Bool} {l tail : List UInt8} {c : UInt8}
    (hl : ∀ x ∈ l, p x = true) (hc : p c = false) : (l ++ c :: tail).takeWhile p = l := by
  rw [List.takeWhile_append_of_pos hl, List.takeWhile_cons_of_neg (by rw [hc]; simp),
    List.append_nil]

theorem dropWhile_spaces {l : List UInt8} (hl : l.head? ≠ some 32) (n : Nat) :
    (List.replicate n 32 ++ l).dropWhile (· = 32) = l := by
  rw [List.dropWhile_append_of_pos (by simp)]
  cases l with
  | nil => rfl
  | cons c l => exact List.dropWhile_cons_of_neg (by simpa using hl)

/-- What `parseHTTPHeader` does with a line. -/
theorem parseHTTPHeader_textWith (line : HeaderLine) {name : List UInt8}
    (hname : ∀ c ∈ name, c ≠ 10 ∧ c ≠ 13 ∧ c ≠ 58) {e : UInt8} (he : e = 13 ∨ e = 10)
    (tail : List UInt8) :
    parseHTTPHeader isUTF8 (line.textWith name (e :: tail)) =
      if tail ≠ [] ∧ name ≠ [] ∧ isUTF8 name = true ∧ line.value ≠ [] then
        some ⟨name.length + 1 + line.spaces + line.value.length + 1, name, line.value⟩
      else none := by
  have hends : (!isCR e && !isLF e) = false := by rcases he with rfl | rfl <;> decide
  have htake : (line.textWith name (e :: tail)).takeWhile
      (fun c => !isCR c && !isLF c && !decide (c = 58)) = name :=
    takeWhile_append_cons (fun c hc => by simp [isCR, isLF, hname c hc]) (by decide)
  have hhead : (line.value ++ e :: tail).head? ≠ some 32 := by
    have := line.head_value
    cases h : line.value with
    | nil => rcases he with rfl | rfl <;> simp
    | cons c value => simpa [h] using this
  have hvalue : (line.value ++ e :: tail).takeWhile (fun c => !isCR c && !isLF c) = line.value :=
    takeWhile_append_cons (fun c hc => by simp [isCR, isLF, line.ne_of_mem_value c hc]) hends
  simp only [parseHTTPHeader, htake]
  rw [textWith, List.drop_left]
  simp only [isCR, isLF, show (58 : UInt8) = 13 ↔ False by decide,
    show (58 : UInt8) = 10 ↔ False by decide, decide_false, Bool.false_eq_true, if_false]
  simp only [parseValue, dropWhile_spaces hhead, hvalue, List.drop_left]
  cases tail with
  | nil => simp
  | cons c tail =>
    have hspaces : (List.replicate line.spaces 32 ++ (line.value ++ e :: c :: tail)).length -
        (line.value ++ e :: c :: tail).length = line.spaces := by
      rw [List.length_append, List.length_replicate, Nat.add_sub_cancel]
    simp only [hspaces, line.isUTF8_value, and_true, ne_eq, reduceCtorEq, not_false_eq_true,
      true_and]

theorem decodeUTF8_of_isASCII {name : List UInt8} (h : ∀ c ∈ name, UTF8.isASCII c = true) :
    isUTF8 name = true ∧ (decodeUTF8 name).length = name.length := by
  rw [isUTF8, decodeUTF8, UTF8.fromUTF8_of_isASCII (List.all_eq_true.mpr h)]
  exact ⟨rfl, List.length_map ..⟩

theorem length_pos (line : HeaderLine) : 0 < line.length := by
  rw [length]
  omega

theorem length_lines (ending : LineEnding) (rest : List UInt8) (headers : List HeaderLine) :
    (lines ending rest headers).length =
      (headers.map fun line => line.length + ending.bytes.length).sum + rest.length := by
  induction headers with
  | nil => simp [lines]
  | cons line headers ih =>
    rw [lines, length_textWith, List.length_append, ih, List.map_cons, List.sum_cons, length]
    omega

theorem name_ne (line : HeaderLine) : ∀ c ∈ line.name, c ≠ 10 ∧ c ≠ 13 ∧ c ≠ 58 :=
  fun c hc => (line.ne_of_mem_name c hc).2

theorem drop_textWith (line : HeaderLine) (name : List UInt8) (e : UInt8) (tail : List UInt8) :
    (line.textWith name (e :: tail)).drop
      (name.length + 1 + line.spaces + line.value.length + 1) = tail := by
  have shape : line.textWith name (e :: tail) =
      (name ++ 58 :: (List.replicate line.spaces 32 ++ (line.value ++ [e]))) ++ tail := by
    simp [textWith]
  have hlength : (name ++ 58 :: (List.replicate line.spaces 32 ++ (line.value ++ [e]))).length =
      name.length + 1 + line.spaces + line.value.length + 1 := by
    simp only [List.length_append, List.length_cons, List.length_replicate, List.length_nil]
    omega
  rw [shape, ← hlength, List.drop_left]

/-! ## Lines that end with CR and LF -/

/-- One turn of the loop. -/
theorem parseHeaderLines_crlf (line : HeaderLine) (fuel : Nat) (tail : List UInt8) :
    parseHeaderLines isUTF8 (fuel + 1) (line.textWith line.name (13 :: 10 :: tail)) =
      if line.value = [] then ([], 0)
      else (line.field :: (parseHeaderLines isUTF8 fuel tail).1,
        line.length + 1 + (parseHeaderLines isUTF8 fuel tail).2) := by
  have utf8 := (decodeUTF8_of_isASCII line.isASCII_of_mem).1
  rw [parseHeaderLines, line.parseHTTPHeader_textWith line.name_ne (.inl rfl)]
  by_cases empty : line.value = []
  · simp [empty]
  · have accepted : (10 :: tail ≠ [] ∧ line.name ≠ [] ∧ isUTF8 line.name = true ∧
        line.value ≠ []) := ⟨List.cons_ne_nil _ _, line.name_ne_nil, utf8, empty⟩
    rw [if_pos accepted, if_neg empty]
    dsimp only
    rw [if_neg line.name_ne_nil, ← List.drop_drop, drop_textWith]
    rfl

/-- The whole loop: each of the headers leaves one byte uncounted. -/
theorem parseHeaderLines_crlf_lines (headers : List HeaderLine) (rest : List UInt8) {fuel : Nat}
    (hfuel : headers.length < fuel) :
    ((∀ line ∈ headers, line.value ≠ []) →
      parseHeaderLines isUTF8 fuel (block .crlf headers rest) =
        (headers.map field, (headers.map fun line => line.length + 1).sum + 2)) ∧
    ((∃ line ∈ headers, line.value = []) →
      (parseHeaderLines isUTF8 fuel (block .crlf headers rest)).2 <
        (headers.map fun line => line.length + 1).sum) := by
  induction headers generalizing fuel with
  | nil =>
    obtain ⟨fuel, rfl⟩ : ∃ n, fuel = n + 1 := ⟨fuel - 1, by simp at hfuel; omega⟩
    exact ⟨fun _ => rfl, fun ⟨_, mem, _⟩ => absurd mem List.not_mem_nil⟩
  | cons line headers ih =>
    obtain ⟨fuel, rfl⟩ : ∃ n, fuel = n + 1 := ⟨fuel - 1, by simp at hfuel; omega⟩
    obtain ⟨all, some⟩ := @ih fuel (by simpa using hfuel)
    have turn := parseHeaderLines_crlf line fuel (block .crlf headers rest)
    change _ ∧ (_ → (parseHeaderLines isUTF8 (fuel + 1) (line.textWith line.name
      (13 :: 10 :: block .crlf headers rest))).2 < _)
    constructor
    · intro values
      change parseHeaderLines isUTF8 (fuel + 1) (line.textWith line.name
        (13 :: 10 :: block .crlf headers rest)) = _
      rw [turn, if_neg (values line List.mem_cons_self),
        all fun line mem => values line (List.mem_cons_of_mem _ mem)]
      simp only [List.map_cons, List.sum_cons, Nat.add_assoc]
    · rintro ⟨l, mem, empty⟩
      rw [turn, List.map_cons, List.sum_cons]
      split
      · exact Nat.add_pos_left (Nat.succ_pos _) _
      · rename_i nonempty
        rcases List.mem_cons.mp mem with rfl | mem
        · exact absurd empty nonempty
        · exact Nat.add_lt_add_left (some ⟨l, mem, empty⟩) _

/-! ## Lines that end with LF -/

/-- The header that the loop finds behind the first character of a line. -/
def shortened (line : HeaderLine) : List UInt8 × List UInt8 := (line.name.tail, line.value)

/-- The lines without their first character. -/
def skipped (rest : List UInt8) : List HeaderLine → List UInt8
  | [] => rest
  | line :: more => line.textWith line.name.tail (10 :: lines .lf (10 :: rest) more)

theorem drop_lines (rest : List UInt8) (headers : List HeaderLine) :
    (lines .lf (10 :: rest) headers).drop 1 = skipped rest headers := by
  cases headers with
  | nil => rfl
  | cons line headers =>
    rw [lines, skipped, textWith, textWith]
    obtain ⟨c, name, eq⟩ := List.exists_cons_of_ne_nil line.name_ne_nil
    rw [eq]
    rfl

theorem lines_ne_nil (rest : List UInt8) (headers : List HeaderLine) :
    lines .lf (10 :: rest) headers ≠ [] := by
  cases headers with
  | nil => exact List.cons_ne_nil _ _
  | cons line headers =>
    rw [lines, textWith]
    simp

/-- One turn of the loop, with the name or its tail. -/
theorem parseHeaderLines_lf (line : HeaderLine) {name : List UInt8} (hname : name ⊆ line.name)
    (fuel : Nat) (rest : List UInt8) (headers : List HeaderLine) :
    parseHeaderLines isUTF8 (fuel + 1) (line.textWith name (10 :: lines .lf (10 :: rest) headers)) =
      if name = [] ∨ line.value = [] then ([], 0)
      else ((name, line.value) :: (parseHeaderLines isUTF8 fuel (skipped rest headers)).1,
        name.length + 1 + line.spaces + line.value.length + 1 +
          (parseHeaderLines isUTF8 fuel (skipped rest headers)).2) := by
  have utf8 := (decodeUTF8_of_isASCII fun c hc => line.isASCII_of_mem c (hname hc)).1
  rw [parseHeaderLines,
    line.parseHTTPHeader_textWith (fun c hc => line.name_ne c (hname hc)) (.inr rfl)]
  by_cases stops : name = [] ∨ line.value = []
  · rw [if_pos stops, if_neg fun h => stops.elim h.2.1 h.2.2.2]
  · have accepted : lines .lf (10 :: rest) headers ≠ [] ∧ name ≠ [] ∧ isUTF8 name = true ∧
        line.value ≠ [] :=
      ⟨lines_ne_nil rest headers, fun h => stops (.inl h), utf8, fun h => stops (.inr h)⟩
    rw [if_pos accepted, if_neg stops]
    dsimp only
    rw [if_neg accepted.2.1, ← List.drop_drop, drop_textWith, drop_lines]

/-- The loop behind the first line: it stops before the end of the block, or it finds all headers
without the first character of their names, and then reads on in what follows. -/
theorem parseHeaderLines_skipped (headers : List HeaderLine) (rest : List UInt8) (fuel : Nat)  :
    (parseHeaderLines isUTF8 fuel (skipped rest headers)).2 <
        (headers.map fun line => line.length + 1).sum ∨
    ∃ n, (parseHeaderLines isUTF8 fuel (skipped rest headers)).1 =
      headers.map shortened ++ (parseHeaderLines isUTF8 n rest).1 := by
  induction headers generalizing fuel with
  | nil => exact .inr ⟨fuel, rfl⟩
  | cons line headers ih =>
    have pos : 0 < ((line :: headers).map fun line => line.length + 1).sum := by
      rw [List.map_cons, List.sum_cons]
      omega
    cases fuel with
    | zero => exact .inl pos
    | succ fuel =>
      rw [skipped, parseHeaderLines_lf line ( List.tail_subset _)]
      split
      · exact .inl pos
      · rcases ih fuel with lt | ⟨n, eq⟩
        · left
          rw [List.map_cons, List.sum_cons, List.length_tail, length]
          dsimp only
          omega
        · right
          exact ⟨n, by rw [eq]; rfl⟩

theorem lines_append (ending : LineEnding) (a b : List UInt8) (headers : List HeaderLine) :
    lines ending (a ++ b) headers = lines ending a headers ++ b := by
  induction headers with
  | nil => rfl
  | cons line headers ih => simp only [lines, textWith, ih, List.append_assoc, List.cons_append]

theorem block_append (ending : LineEnding) (headers : List HeaderLine) (rest : List UInt8) :
    block ending headers rest = block ending headers [] ++ rest := by
  rw [block, block, List.append_nil, lines_append]

theorem length_block (ending : LineEnding) (headers : List HeaderLine) :
    (block ending headers []).length = (headers.map fun line => line.length +
      ending.bytes.length).sum + ending.bytes.length := by
  rw [block, List.append_nil, length_lines]

theorem zero_not_mem_lines {ending : LineEnding} {rest : List UInt8} (h : 0 ∉ rest)
    (headers : List HeaderLine) : 0 ∉ lines ending rest headers := by
  induction headers with
  | nil => exact h
  | cons line headers ih =>
    have name : 0 ∉ line.name := fun mem => (line.ne_of_mem_name 0 mem).1 rfl
    have value : 0 ∉ line.value := fun mem => (line.ne_of_mem_value 0 mem).1 rfl
    have bytes : 0 ∉ ending.bytes := by cases ending <;> decide
    simp [lines, textWith, ih, name, value, bytes, List.mem_replicate]

theorem suffix_textWith (line : HeaderLine) (name tail : List UInt8) :
    tail <:+ line.textWith name tail :=
  ⟨name ++ 58 :: (List.replicate line.spaces 32 ++ line.value), by simp [textWith]⟩

/-- A block ends with two line endings. -/
theorem suffix_lines (ending : LineEnding) (rest : List UInt8) (first : HeaderLine)
    (others : List HeaderLine) : ending.bytes ++ rest <:+ lines ending rest (first :: others) := by
  induction others generalizing first with
  | nil => exact suffix_textWith ..
  | cons line others ih =>
    exact (ih line).trans ((List.suffix_append _ _).trans (suffix_textWith ..))

/-- So the loop begins as soon as the block is there. -/
theorem hasHeaderEnd_block (ending : LineEnding) (first : HeaderLine) (others : List HeaderLine)
    (rest : List UInt8) : hasHeaderEnd (block ending (first :: others) rest) = true := by
  rw [block_append]
  refine hasHeaderEnd_append ?_ rest
  have nonzero : 0 ∉ block ending (first :: others) [] :=
    zero_not_mem_lines (by cases ending <;> decide) _
  have found : ending.bytes ++ ending.bytes <:+:
      (block ending (first :: others) []).takeWhile (· ≠ 0) := by
    have whole : (block ending (first :: others) []).takeWhile (· ≠ 0) =
        block ending (first :: others) [] := by
      rw [List.takeWhile_eq_self_iff]
      intro c hc
      exact decide_eq_true fun h => nonzero (h ▸ hc)
    rw [whole, block, List.append_nil]
    exact (suffix_lines ending ending.bytes first others).isInfix
  rw [hasHeaderEnd, Bool.or_eq_true, strnstr_iff, strnstr_iff]
  cases ending with
  | crlf => exact .inl found
  | lf => exact .inr found

/-! ## Whole blocks -/

section Exact

variable {Key : Type} [DecidableEq Key] (names : HeaderNames Key)

/-- `parseHeadersIfPossible` leaves the fields of the block in the map and what follows the block in
the buffer. -/
def ConsumedExactly (ending : LineEnding) (headers : List HeaderLine) (rest : List UInt8) : Prop :=
  ∃ events handle,
    (⟨block ending headers rest, [], .inHeader⟩ : MultipartHandle).inHeaderCase isUTF8 =
      .goOn events handle ∧
    headerMap names handle.headers = headerMap names (headers.map field) ∧ handle.buffer = rest

/-- The result of the loop on a block. -/
def parsed (ending : LineEnding) (headers : List HeaderLine) (rest : List UInt8) :
    List (List UInt8 × List UInt8) × Nat :=
  parseHeaderLines isUTF8 (block ending headers rest).length (block ending headers rest)

theorem consumedExactly_iff (ending : LineEnding) (first : HeaderLine) (others : List HeaderLine)
    (rest : List UInt8) :
    ConsumedExactly names ending (first :: others) rest ↔
      headerMap names (parsed ending (first :: others) rest).1 =
        headerMap names ((first :: others).map field) ∧
      (parsed ending (first :: others) rest).2 + 1 =
        (block ending (first :: others) []).length := by
  have ends := hasHeaderEnd_block ending first others rest
  have le := parseHeaderLines_lt isUTF8 ends
  have step : (⟨block ending (first :: others) rest, [], .inHeader⟩ : MultipartHandle).inHeaderCase
      isUTF8 = .goOn [.response (parsed ending (first :: others) rest).1]
        ⟨(block ending (first :: others) rest).drop ((parsed ending (first :: others) rest).2 + 1),
          (parsed ending (first :: others) rest).1, .inContent⟩ := by
    rw [MultipartHandle.inHeaderCase, if_pos ends]
    rfl
  have drop : (block ending (first :: others) rest).drop
      ((parsed ending (first :: others) rest).2 + 1) = rest ↔
      (parsed ending (first :: others) rest).2 + 1 =
        (block ending (first :: others) []).length := by
    constructor
    · intro eq
      have lengths := congrArg List.length eq
      rw [List.length_drop] at lengths
      have total := congrArg List.length (block_append ending (first :: others) rest)
      rw [List.length_append] at total
      change (parsed ending (first :: others) rest).2 + 1 ≤ _ at le
      omega
    · intro eq
      rw [block_append, eq, List.drop_left]
  constructor
  · rintro ⟨events, handle, eq, map, buffer⟩
    rw [step] at eq
    cases eq
    exact ⟨map, drop.mp buffer⟩
  · rintro ⟨map, eq⟩
    exact ⟨_, _, step, map, drop.mpr eq⟩

theorem sum_headerSize_eq_zero {headers : List (List UInt8 × List UInt8)}
    (h : (headers.map headerSize).sum = 0) : headers = [] := by
  cases headers with
  | nil => rfl
  | cons header headers =>
    rw [List.map_cons, List.sum_cons, headerSize] at h
    omega

omit [DecidableEq Key] in
theorem length_headerKey_field (line : HeaderLine) :
    names.length (headerKey names line.field) = line.name.length := by
  rw [headerKey, names.length_key]
  exact (decodeUTF8_of_isASCII line.isASCII_of_mem).2

omit [DecidableEq Key] in
theorem length_headerKey_shortened (line : HeaderLine) :
    names.length (headerKey names line.shortened) = line.name.length - 1 := by
  rw [headerKey, names.length_key, ← List.length_tail]
  exact (decodeUTF8_of_isASCII fun c hc => line.isASCII_of_mem c (List.mem_of_mem_tail hc)).2

omit [DecidableEq Key] in
/-- With each name the sum of the lengths of the names, weighted by the values, becomes smaller. -/
theorem sum_shortened_add (others : List HeaderLine) :
    (others.map fun line => names.length (headerKey names line.shortened) *
        headerSize line.shortened).sum + (others.map fun line => headerSize line.field).sum =
      (others.map fun line => names.length (headerKey names line.field) *
        headerSize line.field).sum := by
  induction others with
  | nil => rfl
  | cons line others ih =>
    have pos := List.length_pos_iff.mpr line.name_ne_nil
    have one : (line.name.length - 1) * headerSize line.field + headerSize line.field =
        line.name.length * headerSize line.field := by
      rw [← Nat.succ_mul, Nat.succ_eq_add_one, Nat.sub_add_cancel pos]
    simp only [List.map_cons, List.sum_cons]
    rw [← ih, length_headerKey_field, length_headerKey_shortened, ← one,
      show headerSize line.shortened = headerSize line.field from rfl]
    omega

/-- A map with shortened names is not the map with the names. -/
theorem eq_nil_of_headerMap_shortened {first : HeaderLine} {others : List HeaderLine}
    {extra : List (List UInt8 × List UInt8)}
    (eq : headerMap names (first.field :: (others.map shortened ++ extra)) =
      headerMap names ((first :: others).map field)) : others = [] := by
  have sizes := sum_eq_of_headerMap_eq names eq fun _ => 1
  have lengths := sum_eq_of_headerMap_eq names eq names.length
  simp only [Nat.one_mul, List.map_cons, List.map_append, List.map_map, List.sum_cons,
    List.sum_append, Function.comp_def] at sizes lengths
  have none : extra = [] := by
    refine sum_headerSize_eq_zero ?_
    have same : (others.map fun line => headerSize line.shortened) =
        others.map fun line => headerSize line.field := rfl
    rw [same] at sizes
    change (extra.map fun x => headerSize x).sum = 0
    omega
  subst none
  have less := sum_shortened_add names others
  have zero : (others.map fun line => headerSize line.field).sum = 0 := by
    simp only [List.map_nil, List.sum_nil] at lengths
    omega
  have fields : others.map field = [] := sum_headerSize_eq_zero (by rw [List.map_map]; exact zero)
  exact List.map_eq_nil_iff.mp fields

theorem sum_add_length (headers : List HeaderLine) :
    (headers.map fun line => line.length + 2).sum =
      (headers.map fun line => line.length + 1).sum + headers.length := by
  induction headers with
  | nil => rfl
  | cons line headers ih =>
    simp only [List.map_cons, List.sum_cons, List.length_cons, ih]
    omega

theorem length_lt_length_block (ending : LineEnding) (headers : List HeaderLine) :
    headers.length < (block ending headers []).length := by
  have le : headers.length ≤
      (headers.map fun line => line.length + ending.bytes.length).sum := by
    induction headers with
    | nil => exact Nat.zero_le _
    | cons line headers ih =>
      have := line.length_pos
      rw [List.map_cons, List.sum_cons, List.length_cons]
      omega
  have pos : 0 < ending.bytes.length := by cases ending <;> decide
  rw [length_block]
  omega

theorem consumedExactly_crlf_iff (first : HeaderLine) (others : List HeaderLine)
    (rest : List UInt8) :
    ConsumedExactly names .crlf (first :: others) rest ↔ first.value ≠ [] ∧ others = [] := by
  have enough : (first :: others).length < (block .crlf (first :: others) rest).length := by
    have := length_lt_length_block .crlf (first :: others)
    rw [block_append, List.length_append]
    omega
  obtain ⟨all, stops⟩ := parseHeaderLines_crlf_lines (first :: others) rest enough
  have total := length_block .crlf (first :: others)
  have two : LineEnding.crlf.bytes.length = 2 := rfl
  rw [two, sum_add_length] at total
  rw [consumedExactly_iff, total]
  by_cases values : ∀ line ∈ first :: others, line.value ≠ []
  · rw [parsed, all values]
    dsimp only
    constructor
    · rintro ⟨-, eq⟩
      refine ⟨values first List.mem_cons_self, List.eq_nil_of_length_eq_zero ?_⟩
      rw [List.length_cons] at eq
      omega
    · rintro ⟨-, rfl⟩
      exact ⟨rfl, rfl⟩
  · obtain ⟨line, mem, empty⟩ : ∃ line ∈ first :: others, line.value = [] := by
      simpa only [not_forall, exists_prop, ne_eq, not_not] using values
    have lt := stops ⟨line, mem, empty⟩
    constructor
    · rintro ⟨-, eq⟩
      rw [parsed] at eq
      omega
    · rintro ⟨hfirst, rfl⟩
      rw [List.mem_singleton.mp mem] at empty
      exact absurd empty hfirst

theorem consumed_pos {data : List UInt8} {header : ParsedHeader}
    (h : parseHTTPHeader isUTF8 data = some header) : 0 < header.consumed := by
  simp only [parseHTTPHeader, parseValue] at h
  repeat' split at h
  all_goals cases h
  · exact Nat.two_pos
  · exact Nat.succ_pos _

theorem parseHeaderLines_pos {fuel : Nat} {data : List UInt8} {header : ParsedHeader}
    (h : parseHTTPHeader isUTF8 data = some header) :
    0 < (parseHeaderLines isUTF8 (fuel + 1) data).2 := by
  have pos := consumed_pos h
  rw [parseHeaderLines, h]
  dsimp only
  split
  · exact pos
  · exact Nat.add_pos_left pos _

theorem consumedExactly_lf_iff (first : HeaderLine) (others : List HeaderLine)
    (rest : List UInt8) :
    ConsumedExactly names .lf (first :: others) rest ↔
      first.value ≠ [] ∧ others = [] ∧ parseHTTPHeader isUTF8 rest = none := by
  have total := length_block .lf (first :: others)
  have one : LineEnding.lf.bytes.length = 1 := rfl
  rw [one, List.map_cons, List.sum_cons] at total
  obtain ⟨fuel, hfuel⟩ : ∃ n, (block .lf (first :: others) rest).length = n + 1 + 1 := by
    refine ⟨(block .lf (first :: others) rest).length - 2, ?_⟩
    rw [block_append, List.length_append]
    omega
  have turn := parseHeaderLines_lf first (List.Subset.refl first.name) (fuel + 1) rest others
  have eq : parsed .lf (first :: others) rest = parseHeaderLines isUTF8 (fuel + 1 + 1)
      (first.textWith first.name (10 :: lines .lf (10 :: rest) others)) := by
    rw [parsed, hfuel]
    rfl
  rw [consumedExactly_iff, total, eq, turn]
  by_cases empty : first.value = []
  · rw [if_pos (.inr empty)]
    refine iff_of_false (fun h => ?_) fun h => h.1 empty
    have := h.2
    have := first.length_pos
    omega
  rw [if_neg fun h => h.elim first.name_ne_nil empty]
  have length : first.name.length + 1 + first.spaces + first.value.length = first.length := rfl
  rw [length]
  dsimp only
  constructor
  · rintro ⟨map, consumed⟩
    have none : others = [] := by
      rcases parseHeaderLines_skipped others rest (fuel + 1) with lt | ⟨n, found⟩
      · omega
      · rw [found] at map
        exact eq_nil_of_headerMap_shortened names map
    subst none
    refine ⟨empty, rfl, ?_⟩
    cases header : parseHTTPHeader isUTF8 rest with
    | none => rfl
    | some header' =>
      have pos := (@parseHeaderLines_pos fuel) header
      rw [skipped] at consumed
      simp only [List.map_nil, List.sum_nil] at consumed
      omega
  · rintro ⟨-, rfl, none⟩
    have nothing : parseHeaderLines isUTF8 (fuel + 1) (skipped rest []) = ([], 0) := by
      rw [skipped, parseHeaderLines, none]
    rw [nothing]
    exact ⟨rfl, by simp only [List.map_nil, List.sum_nil]; omega⟩

/-- The headers of a block of one or more well-formed lines are consumed exactly if there is only
one line, its value is not empty and, for lines that end with LF, what follows the block does not
look like a header. -/
theorem block_consumedExactly_iff (ending : LineEnding) (first : HeaderLine)
    (others : List HeaderLine) (rest : List UInt8) :
    ConsumedExactly names ending (first :: others) rest ↔
      others = [] ∧ first.value ≠ [] ∧
        (ending = .crlf ∨ parseHTTPHeader isUTF8 rest = none) := by
  cases ending with
  | crlf => simp [consumedExactly_crlf_iff, and_comm]
  | lf =>
    rw [consumedExactly_lf_iff]
    simp only [reduceCtorEq, false_or]
    exact and_left_comm

end Exact

/-- The line `A: x`. -/
def lineA : HeaderLine :=
  ⟨[65], 1, [120],
    by decide +kernel, by decide +kernel, by decide +kernel, by decide +kernel, by decide +kernel,
    by decide +kernel⟩

/-- The line `B: y`. -/
def lineB : HeaderLine :=
  ⟨[66], 1, [121],
    by decide +kernel, by decide +kernel, by decide +kernel, by decide +kernel, by decide +kernel,
    by decide +kernel⟩

/-- Two headers that end with CR and LF: the last line feed stays in the buffer. -/
theorem twoHeaders_not_consumedExactly :
    ¬ ConsumedExactly ⟨id, List.length, fun _ => rfl⟩ .crlf
      [lineA, lineB] [104, 105] ∧
    (⟨block .crlf [lineA, lineB] [104, 105], [],
      .inHeader⟩ : MultipartHandle).inHeaderCase isUTF8 =
      .goOn [.response [([65], [120]), ([66], [121])]]
        ⟨[10, 104, 105], [([65], [120]), ([66], [121])], .inContent⟩ := by
  have step : (⟨block .crlf [lineA, lineB] [104, 105], [],
      .inHeader⟩ : MultipartHandle).inHeaderCase isUTF8 =
      .goOn [.response [([65], [120]), ([66], [121])]]
        ⟨[10, 104, 105], [([65], [120]), ([66], [121])], .inContent⟩ := by
    decide +kernel
  refine ⟨?_, step⟩
  rintro ⟨events, handle, eq, -, buffer⟩
  rw [step] at eq
  cases eq
  cases buffer

end HeaderLine

end Odyssey.Network
