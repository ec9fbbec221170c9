import Mathlib.Tactic.Basic
import Odyssey.Yarr.Parser

/-!
# Counted quantifiers

`consumeNumber` computes in 32 bits. Before it takes a digit it compares the new value with the old
one, so it notices an overflow only if the value becomes smaller. Then it stops inside the number,
what follows is no complete quantifier, and the token is taken literally; if the value does not
become smaller, the number is read modulo `2 ^ 32`. So a counted quantifier means what it says
exactly if its numbers are below `2 ^ 32`, or, for an upper bound, if the value modulo `2 ^ 32`
happens to be the one that stands for infinity.
-/

namespace Odyssey.Yarr

open WTF WTF.ASCII

/-! ## Numbers -/

/-- The value of the digits behind a number of value `n`. -/
def decimalFrom (n : Nat) (digits : Text) : Nat :=
  digits.foldl (fun n d => n * 10 + (digitValue d).toNat) n

/-- The value of a decimal number. -/
def decimal (digits : Text) : Nat := decimalFrom 0 digits

/-- Modulo `2 ^ 32` the value never becomes smaller while the digits are read. -/
def NoDrop (n : Nat) : Text → Prop
  | [] => True
  | d :: digits =>
    n % 2 ^ 32 ≤ (n * 10 + (digitValue d).toNat) % 2 ^ 32 ∧
      NoDrop (n * 10 + (digitValue d).toNat) digits

/-- The text does not go on with a digit. -/
def EndsNumber (s : Text) : Prop := ∀ c ∈ s.head?, isASCIIDigit c = false

theorem le_decimalFrom (n : Nat) (digits : Text) : n ≤ decimalFrom n digits := by
  induction digits generalizing n with
  | nil => exact Nat.le_refl _
  | cons d digits ih =>
    have := ih (n * 10 + (digitValue d).toNat)
    rw [decimalFrom, List.foldl_cons]
    exact Nat.le_trans (by omega) this

/-- A number that fits never drops. -/
theorem noDrop_of_lt {n : Nat} {digits : Text} (lt : decimalFrom n digits < 2 ^ 32) :
    NoDrop n digits := by
  induction digits generalizing n with
  | nil => trivial
  | cons d digits ih =>
    rw [decimalFrom, List.foldl_cons] at lt
    have le := le_decimalFrom (n * 10 + (digitValue d).toNat) digits
    rw [decimalFrom] at le
    refine ⟨?_, ih lt⟩
    rw [Nat.mod_eq_of_lt (by omega), Nat.mod_eq_of_lt (by omega)]
    omega

theorem toNat_newValue {n : UInt32} {value : Nat} (h : n.toNat = value % 2 ^ 32) (d : UInt16) :
    (n * 10 + digitValue d).toNat = (value * 10 + (digitValue d).toNat) % 2 ^ 32 := by
  rw [UInt32.toNat_add, UInt32.toNat_mul, h]
  change (value % 2 ^ 32 * 10 % 2 ^ 32 + (digitValue d).toNat) % 2 ^ 32 = _
  omega

/-- What the loop of `consumeNumber` does with a whole number: it reads it modulo `2 ^ 32`, or it
stops at a digit. -/
theorem consumeDigits_spec {digits s : Text} (isDigits : IsDigits digits) (ends : EndsNumber s)
    {n : UInt32} {value : Nat} (h : n.toNat = value % 2 ^ 32) :
    (NoDrop value digits → ∃ m, consumeDigits n (digits ++ s) = (m, s) ∧
      m.toNat = decimalFrom value digits % 2 ^ 32) ∧
    (¬ NoDrop value digits → ∃ m d t, consumeDigits n (digits ++ s) = (m, d :: t) ∧
      isASCIIDigit d = true) := by
  induction digits generalizing n value with
  | nil =>
    refine ⟨fun _ => ⟨n, ?_, h⟩, fun drop => absurd trivial drop⟩
    cases s with
    | nil => rfl
    | cons c s => simp [consumeDigits, ends c rfl]
  | cons d digits ih =>
    have digit := isDigits d List.mem_cons_self
    have rest := fun d hd => isDigits d (List.mem_cons_of_mem _ hd)
    have new := toNat_newValue h d
    obtain ⟨reads, stops⟩ := ih rest new
    rw [List.cons_append, consumeDigits, if_pos digit]
    dsimp only
    by_cases le : n ≤ n * 10 + digitValue d
    · rw [if_pos le]
      rw [UInt32.le_iff_toNat_le, h, new] at le
      exact ⟨fun noDrop => reads noDrop.2, fun drop => stops fun noDrop => drop ⟨le, noDrop⟩⟩
    · rw [if_neg le]
      rw [UInt32.le_iff_toNat_le, h, new] at le
      exact ⟨fun noDrop => absurd noDrop.1 le, fun _ => ⟨n, d, _, rfl, digit⟩⟩

/-- A number is a non-empty list of digits. -/
structure IsNumber (digits : Text) : Prop where
  ne_nil : digits ≠ []
  isDigits : IsDigits digits

theorem consumeNumber_spec {d : UInt16} {digits s : Text} (isDigits : IsDigits (d :: digits))
    (ends : EndsNumber s) :
    (NoDrop 0 (d :: digits) → ∃ m, consumeNumber d (digits ++ s) = (m, s) ∧
      m.toNat = decimal (d :: digits) % 2 ^ 32) ∧
    (¬ NoDrop 0 (d :: digits) → ∃ m e t, consumeNumber d (digits ++ s) = (m, e :: t) ∧
      isASCIIDigit e = true) := by
  have first : (digitValue d).toNat = (digitValue d).toNat % 2 ^ 32 :=
    (Nat.mod_eq_of_lt (digitValue d).toNat_lt).symm
  have value : decimal (d :: digits) = decimalFrom (digitValue d).toNat digits := by
    rw [decimal, decimalFrom, List.foldl_cons, Nat.zero_mul, Nat.zero_add]
    rfl
  have drop : NoDrop 0 (d :: digits) ↔ NoDrop (digitValue d).toNat digits := by
    rw [NoDrop, Nat.zero_mod, Nat.zero_mul, Nat.zero_add]
    exact ⟨And.right, fun h => ⟨Nat.zero_le _, h⟩⟩
  rw [value, drop]
  exact consumeDigits_spec (fun e he => isDigits e (List.mem_cons_of_mem _ he)) ends first

/-! ## Tokens -/

/-- What stands behind the first number of a counted quantifier. -/
inductive UpperBound where
  | absent
  | infinite
  | number (digits : Text)

def UpperBound.text : UpperBound → Text
  | .absent => []
  | .infinite => [ch ',']
  | .number digits => ch ',' :: digits

def UpperBound.WellFormed : UpperBound → Prop
  | .number digits => IsNumber digits
  | _ => True

/-- The text of a counted quantifier behind its brace. -/
def countedText (min : Text) (max : UpperBound) : Text :=
  min ++ max.text ++ [ch '\x7d']

/-- The bound that a call carries is the one that is written; from `2 ^ 32 - 1` on it is
infinite. -/
def UpperBound.Denotes (min : Text) (bound : UInt32) : UpperBound → Prop
  | .absent => bound.toNat = decimal min
  | .infinite => bound = quantifyInfinite
  | .number digits =>
    if decimal digits < 2 ^ 32 - 1 then bound.toNat = decimal digits else bound = quantifyInfinite

/-- The calls made for the token are one `quantifyAtom` with the values that are written. -/
def DenotesQuantifier (min : Text) (max : UpperBound) (callbacks : List Callback) : Prop :=
  ∃ m n greedy, callbacks = [.quantifyAtom m n greedy] ∧ m.toNat = decimal min ∧
    decimal min < 2 ^ 32 - 1 ∧ max.Denotes min n

/-- The upper bound is read as it is written. -/
def UpperBound.Fits : UpperBound → Prop
  | .number digits =>
    decimal digits < 2 ^ 32 ∨ NoDrop 0 digits ∧ decimal digits % 2 ^ 32 = 2 ^ 32 - 1
  | _ => True

theorem tryConsume_self (c : UInt16) (s : Text) : tryConsume c (c :: s) = some s := by
  rw [tryConsume, if_pos rfl]

theorem tryConsume_of_ne {c d : UInt16} (h : d ≠ c) (s : Text) : tryConsume c (d :: s) = none := by
  rw [tryConsume, if_neg h]

theorem ne_of_isASCIIDigit {c d : UInt16} (h : isASCIIDigit d = true)
    (hc : isASCIIDigit c = false) : d ≠ c := by
  rintro rfl
  rw [h] at hc
  cases hc

/-- The bound that the parser gets from the text of a bound. -/
def UpperBound.Reads (min bound : UInt32) : UpperBound → Prop
  | .absent => bound = min
  | .infinite => bound = quantifyInfinite
  | .number digits => bound.toNat = decimal digits % 2 ^ 32

def UpperBound.NoDrop : UpperBound → Prop
  | .number digits => Yarr.NoDrop 0 digits
  | _ => True

theorem endsNumber_cons {c : UInt16} (h : isASCIIDigit c = false) (s : Text) :
    EndsNumber (c :: s) := by
  rintro _ ⟨⟩
  exact h

variable {max : UpperBound}

/-- The upper bound is read up to the closing brace, or only up to a digit. -/
theorem parseUpperBound_spec (min : UInt32) (wf : max.WellFormed) (s : Text) :
    (max.NoDrop → ∃ bound,
      parseUpperBound min (max.text ++ ch '\x7d' :: s) = (bound, ch '\x7d' :: s) ∧
      max.Reads min bound) ∧
    (¬ max.NoDrop → ∃ bound d t,
      parseUpperBound min (max.text ++ ch '\x7d' :: s) = (bound, d :: t) ∧
      isASCIIDigit d = true) := by
  cases max with
  | absent =>
    refine ⟨fun _ => ⟨min, ?_, rfl⟩, fun drop => absurd trivial drop⟩
    simp only [UpperBound.text, List.nil_append, parseUpperBound]
    rw [tryConsume_of_ne (by decide)]
  | infinite =>
    refine ⟨fun _ => ⟨quantifyInfinite, ?_, rfl⟩, fun drop => absurd trivial drop⟩
    simp only [UpperBound.text, List.cons_append, List.nil_append, parseUpperBound,
      tryConsume_self]
    rw [if_neg (by decide)]
  | number digits =>
    obtain ⟨ne, isDigits⟩ := wf
    cases digits with
    | nil => exact absurd rfl ne
    | cons d digits =>
      have ends : EndsNumber (ch '\x7d' :: s) := endsNumber_cons (by decide) s
      have eq : parseUpperBound min ((UpperBound.number (d :: digits)).text ++ ch '\x7d' :: s) =
          consumeNumber d (digits ++ ch '\x7d' :: s) := by
        simp only [UpperBound.text, List.cons_append, parseUpperBound, tryConsume_self]
        rw [if_pos (isDigits d List.mem_cons_self)]
      rw [eq]
      exact consumeNumber_spec isDigits ends

theorem endsNumber_upperBound (max : UpperBound) (s : Text) :
    EndsNumber (max.text ++ ch '\x7d' :: s) := by
  cases max <;> exact endsNumber_cons (by decide) _

theorem parseCounted_cons {d : UInt16} (digit : isASCIIDigit d = true) {s t u : Text}
    {m n : UInt32} (hmin : consumeNumber d s = (m, t)) (hmax : parseUpperBound m t = (n, u)) :
    parseCounted (d :: s) = (tryConsume (ch '\x7d') u).map fun rest => (m, n, rest) := by
  rw [parseCounted, if_pos digit, hmin]
  dsimp only
  rw [hmax]

/-- A counted quantifier is recognised exactly if neither of its numbers drops. -/
theorem parseCounted_spec {min : Text} (number : IsNumber min) (wf : max.WellFormed) (s : Text) :
    (NoDrop 0 min ∧ max.NoDrop → ∃ m n, parseCounted (countedText min max ++ s) = some (m, n, s) ∧
      m.toNat = decimal min % 2 ^ 32 ∧ max.Reads m n) ∧
    (¬ (NoDrop 0 min ∧ max.NoDrop) → parseCounted (countedText min max ++ s) = none) := by
  obtain ⟨ne, isDigits⟩ := number
  cases min with
  | nil => exact absurd rfl ne
  | cons d digits =>
    have digit := isDigits d List.mem_cons_self
    have shape : countedText (d :: digits) max ++ s =
        d :: (digits ++ (max.text ++ ch '\x7d' :: s)) := by
      simp only [countedText, List.cons_append, List.append_assoc, List.nil_append]
    obtain ⟨reads, stops⟩ := consumeNumber_spec isDigits (endsNumber_upperBound max s)
    rw [shape]
    by_cases noDrop : NoDrop 0 (d :: digits)
    · obtain ⟨m, hmin, value⟩ := reads noDrop
      obtain ⟨bounds, stopsBound⟩ := parseUpperBound_spec m wf s
      constructor
      · rintro ⟨-, noDropBound⟩
        obtain ⟨n, hmax, readsMax⟩ := bounds noDropBound
        refine ⟨m, n, ?_, value, readsMax⟩
        rw [parseCounted_cons digit hmin hmax, tryConsume_self, Option.map_some]
      · intro drop
        obtain ⟨n, e, t, hmax, stop⟩ := stopsBound fun h => drop ⟨noDrop, h⟩
        rw [parseCounted_cons digit hmin hmax,
          tryConsume_of_ne (ne_of_isASCIIDigit stop (by decide)), Option.map_none]
    · obtain ⟨m, e, t, hmin, stop⟩ := stops noDrop
      refine ⟨fun h => absurd h.1 noDrop, fun _ => ?_⟩
      have hmax : parseUpperBound m (e :: t) = (m, e :: t) := by
        rw [parseUpperBound, tryConsume_of_ne (ne_of_isASCIIDigit stop (by decide))]
      rw [parseCounted_cons digit hmin hmax,
        tryConsume_of_ne (ne_of_isASCIIDigit stop (by decide)), Option.map_none]

/-! ## Runs of the parser -/

/-- The states in which the loop of `parseTokens` looks at the next token of the pattern. -/
inductive Reaches (limit : UInt32) (pattern : Text) : ParserState → Prop where
  | start : Reaches limit pattern ⟨pattern, false, 0⟩
  | turn {last : Bool} {depth : Nat} {c : UInt16} {s : Text} {next : ParserState} :
      Reaches limit pattern ⟨c :: s, last, depth⟩ →
      (parseToken limit last depth c s).2 = .ok next → Reaches limit pattern next

/-- In the states reached from an accepted pattern the rest is accepted. -/
theorem Reaches.accepted {limit : UInt32} {pattern : Text} {state : ParserState}
    (reaches : Reaches limit pattern state) (accepted : (parse pattern limit).2 = none) :
    (parseTokens limit state.lastTokenWasAnAtom state.parenthesesNestingDepth state.rest).2 =
      none := by
  induction reaches with
  | start =>
    unfold parse at accepted
    split at accepted
    · cases accepted
    · exact accepted
  | turn reaches eq ih =>
    rw [parseTokens_of_ok eq] at ih
    exact ih

/-- So the next token is accepted. -/
theorem Reaches.parseToken_ok {limit : UInt32} {pattern s : Text} {last : Bool} {depth : Nat}
    {c : UInt16} (reaches : Reaches limit pattern ⟨c :: s, last, depth⟩)
    (accepted : (parse pattern limit).2 = none) :
    ∃ next, (parseToken limit last depth c s).2 = .ok next := by
  have rest := reaches.accepted accepted
  cases eq : (parseToken limit last depth c s).2 with
  | ok next => exact ⟨next, rfl⟩
  | error error =>
    rw [parseTokens_of_error eq] at rest
    cases rest

/-- A quantifier that is accepted calls the delegate with its bounds. -/
theorem parseQuantifier_ok {last : Bool} {min max : UInt32} {depth : Nat} {s : Text}
    {next : ParserState} (h : (parseQuantifier last min max depth s).2 = .ok next) :
    min ≠ 0xFFFFFFFF ∧
      ∃ greedy, (parseQuantifier last min max depth s).1 = [.quantifyAtom min max greedy] := by
  unfold parseQuantifier at h ⊢
  split at h
  · cases h
  · rename_i small
    refine ⟨small, ?_⟩
    rw [if_neg small]
    split at h
    · rw [if_pos ‹_›]
      split at h
      · exact ⟨false, rfl⟩
      · exact ⟨true, rfl⟩
    · cases h

/-- The bound that was read is the one that is written exactly if the bound fits. -/
theorem UpperBound.denotes_iff_fits {min : Text} {m n : UInt32} (hm : m.toNat = decimal min)
    (noDrop : max.NoDrop) (reads : max.Reads m n) :
    max.Denotes min n ↔ max.Fits := by
  cases max with
  | absent =>
    cases reads
    exact iff_of_true hm trivial
  | infinite => exact iff_of_true reads trivial
  | number digits =>
    change n.toNat = decimal digits % 2 ^ 32 at reads
    change (if decimal digits < 2 ^ 32 - 1 then n.toNat = decimal digits
      else n = quantifyInfinite) ↔ decimal digits < 2 ^ 32 ∨ Yarr.NoDrop 0 digits ∧
        decimal digits % 2 ^ 32 = 2 ^ 32 - 1
    have infinite : n = quantifyInfinite ↔ n.toNat = 2 ^ 32 - 1 := UInt32.toNat_inj.symm
    rw [infinite, reads]
    split
    · exact iff_of_true (Nat.mod_eq_of_lt (by omega)) (.inl (by omega))
    · constructor
      · exact fun eq => .inr ⟨noDrop, eq⟩
      · rintro (lt | ⟨-, eq⟩)
        · rw [Nat.mod_eq_of_lt lt]
          omega
        · exact eq

theorem UpperBound.Fits.noDrop (fits : max.Fits) : max.NoDrop := by
  cases max with
  | absent => trivial
  | infinite => trivial
  | number digits =>
    rcases fits with lt | ⟨noDrop, -⟩
    · exact noDrop_of_lt lt
    · exact noDrop

/-- In an accepted pattern a complete counted quantifier becomes one `quantifyAtom` with the values
that are written exactly if its minimum is below `2 ^ 32` and its maximum fits. -/
theorem countedQuantifier_denotes_iff {limit : UInt32} {pattern : Text}
    (accepted : (parse pattern limit).2 = none) {min : Text} {max : UpperBound} {s : Text}
    {last : Bool} {depth : Nat} (number : IsNumber min) (wf : max.WellFormed)
    (reaches : Reaches limit pattern ⟨ch '\x7b' :: (countedText min max ++ s), last, depth⟩) :
    DenotesQuantifier min max
        (parseToken limit last depth (ch '\x7b') (countedText min max ++ s)).1 ↔
      decimal min < 2 ^ 32 ∧ max.Fits := by
  have brace (s : Text) : parseToken limit last depth (ch '\x7b') s =
      braceToken last depth (ch '\x7b') s := rfl
  obtain ⟨next, ok⟩ := reaches.parseToken_ok accepted
  rw [brace] at ok ⊢
  obtain ⟨reads, literal⟩ := parseCounted_spec number wf s
  by_cases noDrop : NoDrop 0 min ∧ max.NoDrop
  · obtain ⟨m, n, eq, value, readsMax⟩ := reads noDrop
    rw [braceToken, eq] at ok ⊢
    dsimp only at ok ⊢
    split at ok
    · rename_i le
      obtain ⟨small, greedy, calls⟩ := parseQuantifier_ok ok
      rw [if_pos le, calls]
      have small : m.toNat ≠ 2 ^ 32 - 1 := fun h => small (UInt32.toNat_inj.mp h)
      constructor
      · rintro ⟨m', n', greedy', same, hm, lt, denotes⟩
        cases same
        exact ⟨by omega, (UpperBound.denotes_iff_fits hm noDrop.2 readsMax).mp denotes⟩
      · rintro ⟨lt, fits⟩
        have hm : m.toNat = decimal min := by rw [value, Nat.mod_eq_of_lt lt]
        exact ⟨m, n, greedy, rfl, hm, by omega,
          (UpperBound.denotes_iff_fits hm noDrop.2 readsMax).mpr fits⟩
    · cases ok
  · rw [braceToken, literal noDrop]
    constructor
    · rintro ⟨m, n, greedy, same, -⟩
      cases same
    · rintro ⟨lt, fits⟩
      exact absurd ⟨noDrop_of_lt lt, fits.noDrop⟩ noDrop

/-- The pattern `a{2,3}`. -/
theorem countedQuantifier_denotes_small :
    (parse (text "a\x7b2,3\x7d") quantifyInfinite).2 = none ∧
    DenotesQuantifier (text "2") (.number (text "3"))
      (parseToken quantifyInfinite true 0 (ch '\x7b') (text "2,3\x7d")).1 := by
  have accepted : (parse (text "a\x7b2,3\x7d") quantifyInfinite).2 = none := by decide +kernel
  have number (digit : UInt16) (h : isASCIIDigit digit = true) : IsNumber [digit] :=
    ⟨List.cons_ne_nil _ _, fun d hd => by rwa [List.mem_singleton.mp hd]⟩
  have wf : (UpperBound.number (text "3")).WellFormed := number _ (by decide)
  have reaches : Reaches quantifyInfinite (text "a\x7b2,3\x7d")
      ⟨ch '\x7b' :: (countedText (text "2") (.number (text "3")) ++ []), true, 0⟩ :=
    .turn .start (by decide +kernel)
  refine ⟨accepted, ?_⟩
  exact (countedQuantifier_denotes_iff accepted (number _ (by decide)) wf reaches).mpr
    ⟨by decide, .inl (by decide)⟩

/-- The first of these accepted patterns quantifies with another minimum, the second has no
quantifier at all. -/
theorem parse_large_quantifiers :
    parse (text "a\x7b9999999999\x7d") quantifyInfinite =
      ([.atomPatternCharacter (ch 'a'), .quantifyAtom 1410065407 1410065407 true], none) ∧
    parse (text "a\x7b4294967297\x7d") quantifyInfinite =
      ((text "a\x7b4294967297\x7d").map .atomPatternCharacter, none) := by
  decide +kernel

end Odyssey.Yarr
