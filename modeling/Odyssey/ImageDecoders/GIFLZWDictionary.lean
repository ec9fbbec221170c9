import Odyssey.ImageDecoders.GIFLZWRows
import Odyssey.Lib.LZW

/-!
# The dictionary of the decoder

The vectors `prefix` and `suffix` hold the entries of an LZW dictionary: an entry is the string of
its prefix with one more character. Handling the code of a symbol emits the word of the symbol, and
keeps the dictionary in step.
-/
namespace Odyssey.ImageDecoders

open Lib.LZW

/-! ## Codes of symbols -/

/-- The entries that there is room for, behind the roots, the clear code and the end code. -/
def dictionaryCapacity (datasize : Nat) : Nat := 4096 - (2 ^ datasize + 2)

def codeNumber (datasize : Nat) : Symbol UInt8 → Nat
  | .clear => 2 ^ datasize
  | .root a => a.toNat
  | .entry i => 2 ^ datasize + 2 + i

/-- A code is as wide as the next free code, which it can be, but has 12 bits at most. The first
code behind a clear code is a root. -/
def codeWidth (datasize : Nat) : Option (Dictionary UInt8) → Nat
  | none => datasize + 1
  | some t => min maxLZWBits (max (datasize + 1) (2 ^ datasize + 2 + t.entries.length).size)

theorem two_pow_le_of_lt {datasize : Nat} (h : datasize < maxLZWBits) : 2 ^ datasize ≤ 2048 :=
  Nat.pow_le_pow_right (by omega) (Nat.le_of_lt_succ h)

theorem lt_codeWidth {datasize : Nat} (h : datasize < maxLZWBits) (t : Option (Dictionary UInt8)) :
    datasize < codeWidth datasize t := by
  cases t with
  | none => exact Nat.lt_succ_self _
  | some t => exact lt_min h (lt_max_of_lt_left (Nat.lt_succ_self _))

/-- Whether codes get wider with the next free code `n`. -/
def widens (width n : Nat) : Prop := n &&& (2 ^ width - 1) = 0 ∧ n < 4096

instance (width n : Nat) : Decidable (widens width n) := inferInstanceAs (Decidable (_ ∧ _))

theorem widens_iff {width n : Nat} (hpos : 0 < n) (h : n ≤ 2 ^ width) :
    widens width n ↔ n = 2 ^ width ∧ n < 4096 := by
  rw [widens, Nat.and_two_pow_sub_one_eq_mod]
  refine and_congr_left fun _ => ⟨fun hmod => ?_, fun heq => ?_⟩
  · by_contra hne
    rw [Nat.mod_eq_of_lt (lt_of_le_of_ne h hne)] at hmod
    omega
  · rw [heq, Nat.mod_self]

/-- The width of codes is kept up to date when a codeword is defined. -/
theorem width_succ (datasize : Nat) {n : Nat} (hn : n < 4096) :
    let width := fun n => min maxLZWBits (max (datasize + 1) (Nat.size n))
    width (n + 1) = if widens (width n) (n + 1) then width n + 1 else width n := by
  intro width
  have hlt : n < 2 ^ width n := by
    rcases min_cases maxLZWBits (max (datasize + 1) n.size) with ⟨hmin, -⟩ | ⟨hmin, -⟩
    · simp only [width, hmin]
      exact hn
    · simp only [width, hmin]
      exact (Nat.lt_size_self n).trans_le (Nat.pow_le_pow_right (by omega) (le_max_right _ _))
  have hle : width n ≤ maxLZWBits := min_le_left _ _
  have hmono : n.size ≤ (n + 1).size := Nat.size_le_size n.le_succ
  have hbits : maxLZWBits = 12 := rfl
  have hwidth : width n = min maxLZWBits (max (datasize + 1) n.size) := rfl
  have hwidth' : width (n + 1) = min maxLZWBits (max (datasize + 1) (n + 1).size) := rfl
  have hiff : widens (width n) (n + 1) ↔ n + 1 = 2 ^ width n ∧ n + 1 < 4096 :=
    widens_iff (by omega) hlt
  rw [if_congr hiff rfl rfl]
  split_ifs with hwidens
  · have hsize : (n + 1).size = width n + 1 := by rw [hwidens.1, Nat.size_pow]
    have hne : width n ≠ 12 := by
      intro h12
      rw [hwidens.1, h12] at hwidens
      exact absurd hwidens.2 (by decide)
    omega
  · rcases Nat.lt_or_ge (n + 1) (2 ^ width n) with hsmall | hlarge
    · have hsize : (n + 1).size ≤ width n := Nat.size_le.mpr hsmall
      omega
    · -- All 4096 codes are defined.
      have heq : n + 1 = 2 ^ width n := by omega
      have hfull : ¬n + 1 < 4096 := fun h => hwidens ⟨heq, h⟩
      have hall : width n = 12 := by
        refine Nat.pow_right_injective (le_refl 2) ?_
        change 2 ^ width n = 4096
        omega
      have hsize : (n + 1).size = width n + 1 := by rw [heq, Nat.size_pow]
      omega

/-- Codes below the next free one, and below 4096, fit. -/
theorem lt_two_pow_codeWidth {datasize code : Nat} (t : Dictionary UInt8)
    (hcode : code ≤ 2 ^ datasize + 2 + t.entries.length) (hlt : code < 4096) :
    code < 2 ^ codeWidth datasize (some t) := by
  rw [codeWidth]
  rcases min_cases maxLZWBits (max (datasize + 1) (2 ^ datasize + 2 + t.entries.length).size) with
    ⟨hmin, -⟩ | ⟨hmin, -⟩
  · rw [hmin]
    exact hlt
  · rw [hmin]
    calc code ≤ 2 ^ datasize + 2 + t.entries.length := hcode
      _ < 2 ^ (2 ^ datasize + 2 + t.entries.length).size := Nat.lt_size_self _
      _ ≤ _ := Nat.pow_le_pow_right (by omega) (le_max_right _ _)

theorem codeNumber_lt {datasize : Nat} {t : Option (Dictionary UInt8)} {symbol : Symbol UInt8}
    {w : List UInt8} (hdatasize : datasize < maxLZWBits)
    (hroom : (entries t).length ≤ dictionaryCapacity datasize)
    (hfits : ∀ a, symbol = .root a → a.toNat < 2 ^ datasize)
    (hword : word (dictionaryCapacity datasize) t symbol = some w) :
    codeNumber datasize symbol < 2 ^ codeWidth datasize t := by
  have hroot : 2 ^ datasize < 2 ^ codeWidth datasize t :=
    Nat.pow_lt_pow_right (by omega) (lt_codeWidth hdatasize t)
  cases symbol with
  | clear => exact hroot
  | root a => exact (hfits a rfl).trans hroot
  | entry i =>
    cases t with
    | none => cases hword
    | some t =>
      have hpow := two_pow_le_of_lt hdatasize
      have hroom : t.entries.length ≤ 4096 - (2 ^ datasize + 2) := hroom
      rw [word] at hword
      rw [codeNumber]
      split_ifs at hword with hnew
      · have : t.entries.length < 4096 - (2 ^ datasize + 2) := hnew.2
        exact lt_two_pow_codeWidth t (by omega) (by omega)
      · obtain ⟨hlt, -⟩ := List.getElem?_eq_some_iff.mp hword
        exact lt_two_pow_codeWidth t (by omega) (by omega)

namespace GIFLZWContext

variable {memory : LZWMemory} {outputRow : List (List UInt8) → Bool} {frame : GIFFrame}

/-! ## Strings of codes -/

/-- The string of a code. -/
inductive Spells (c : GIFLZWContext) : Nat → List UInt8 → Prop
  | root (a : UInt8) (hroot : a.toNat < c.clearCode) (hsuffix : c.suffix a.toNat = a) :
      Spells c a.toNat [a]
  | entry {code next : Nat} {w : List UInt8} (hcode : c.clearCode ≤ code) (havail : code < c.avail)
      (hnext : next < code) (hlink : c.prefixes code = some next) (h : Spells c next w) :
      Spells c code (w ++ [c.suffix code])

variable {c : GIFLZWContext} {w : List UInt8}

theorem Spells.congr {c' : GIFLZWContext} {code : Nat} (h : c.Spells code w)
    (hclear : c'.clearCode = c.clearCode) (hclearAvail : c.clearCode ≤ c.avail)
    (havail : c.avail ≤ c'.avail) (hlink : ∀ code < c.avail, c'.prefixes code = c.prefixes code)
    (hsuffix : ∀ code < c.avail, c'.suffix code = c.suffix code) : c'.Spells code w := by
  induction h with
  | root a hroot hroot' =>
    refine .root a (by omega) ?_
    rw [hsuffix _ (by omega), hroot']
  | @entry code next w hcode hlt hnext hentry h ih =>
    rw [← hsuffix code hlt]
    exact .entry (by omega) (by omega) hnext (by rw [hlink code hlt, hentry]) ih

theorem Spells.code_lt {code : Nat} (h : c.Spells code w) (hclearAvail : c.clearCode ≤ c.avail) :
    code < c.avail := by
  cases h with
  | root a hroot => omega
  | entry hcode hlt => exact hlt

theorem Spells.length_le {code : Nat} (h : c.Spells code w) :
    w.length ≤ code + 1 := by
  induction h with
  | root a => simp
  | entry hcode hlt hnext hentry h ih =>
    rw [List.length_append, List.length_singleton]
    omega

/-- Expanding a code pushes its string but for the first character, and ends with that. -/
theorem Spells.expand (memory : LZWMemory) (c' : GIFLZWContext) {code turns : Nat}
    (h : c.Spells code w) (havail : c.avail ≤ 4096) (hclear : c'.clearCode = c.clearCode)
    (hprefixes : c'.prefixes = c.prefixes) (hsuffix : c'.suffix = c.suffix)
    (hturns : w.length ≤ turns) (hstackp : c'.stackp + w.length ≤ maxBytes) :
    ∃ first rest stack stackp, w = first :: rest ∧ c.suffix first.toNat = first ∧
      c'.expand memory turns code = some (first.toNat, { c' with stack, stackp }) ∧
      stacked memory { c' with stack, stackp } stackp = rest ++ c'.stacked memory c'.stackp := by
  induction h generalizing c' turns with
  | root a hroot hroot' =>
    obtain ⟨turns, rfl⟩ : ∃ n, turns = n + 1 := ⟨turns - 1, by simp at hturns; omega⟩
    refine ⟨a, [], c'.stack, c'.stackp, rfl, hroot', ?_, rfl⟩
    rw [GIFLZWContext.expand, if_pos (by omega)]
  | @entry code next w hcode hlt hnext hentry h ih =>
    simp only [List.length_append, List.length_singleton] at hturns hstackp
    obtain ⟨turns, rfl⟩ : ∃ n, turns = n + 1 := ⟨turns - 1, by omega⟩
    have hpos : 0 < w.length := by
      cases h <;> simp
    have hlink : c'.prefixOf memory code = next := by
      rw [prefixOf, hprefixes, hentry, Option.getD_some]
    have hpushed : (c'.push (c.suffix code)).stackp = c'.stackp + 1 := rfl
    obtain ⟨first, rest, stack, stackp, rfl, hfirst, hexpand, hstacked⟩ :=
      ih (c'.push (c.suffix code)) hclear hprefixes hsuffix (by omega : w.length ≤ turns) (by omega)
    refine ⟨first, rest ++ [c.suffix code], stack, stackp, rfl, hfirst, ?_, ?_⟩
    · have hmax : maxBytes = 4097 := rfl
      have hroot : ¬code < c'.clearCode := by omega
      have hok : ¬(maxBytes ≤ code ∨ code = next) := by omega
      have hlast : c'.suffix code = c.suffix code := by rw [hsuffix]
      rw [GIFLZWContext.expand, if_neg hroot, hlink, if_neg hok, hlast]
      simp only [hpushed]
      rw [if_neg (by omega)]
      exact hexpand
    · rw [hpushed, stacked_push] at hstacked
      rw [List.append_assoc, List.singleton_append, ← hstacked]
      exact stacked_congr fun _ _ => rfl

/-! ## The dictionary -/

/-- The state of the decoder between two codes. -/
structure Represents (datasize : Nat) (c : GIFLZWContext) (t : Option (Dictionary UInt8)) :
    Prop where
  stackp : c.stackp = 0
  clearCode : c.clearCode = 2 ^ datasize
  roots : ∀ a : UInt8, a.toNat < 2 ^ datasize → c.suffix a.toNat = a
  codesize : c.codesize = codeWidth datasize t
  codemask : c.codemask = 2 ^ c.codesize - 1
  avail : c.avail = 2 ^ datasize + 2 + (entries t).length
  room : (entries t).length ≤ dictionaryCapacity datasize
  entries : ∀ i w, (entries t)[i]? = some w → c.Spells (2 ^ datasize + 2 + i) w
  previous : match t with
    | none => c.oldcode = none
    | some t => ∃ code, c.oldcode = some code ∧ c.Spells code t.previous ∧
        t.previous.take 1 = [c.firstchar]

section

variable {datasize : Nat} {c : GIFLZWContext} {t : Option (Dictionary UInt8)}

theorem Represents.clearCode_le (h : c.Represents datasize t) : c.clearCode ≤ c.avail := by
  rw [h.clearCode, h.avail]
  omega

theorem Represents.avail_le (hdatasize : datasize < maxLZWBits) (h : c.Represents datasize t) :
    c.avail ≤ 4096 := by
  have hroom := h.room
  have hpow := two_pow_le_of_lt hdatasize
  rw [dictionaryCapacity] at hroom
  rw [h.avail]
  omega

/-- The stack, the rows and the bit buffer do not matter. -/
theorem Represents.of_rows (h : c.Represents datasize t) (bits datum : Nat)
    (stack : Nat → Option UInt8) (rowBuffer : List UInt8) (rowsRemaining : Nat)
    (rows : List (List UInt8)) :
    Represents datasize
      { c with stackp := 0, bits, datum, stack, rowBuffer, rowsRemaining, rows } t where
  stackp := rfl
  clearCode := h.clearCode
  roots := h.roots
  codesize := h.codesize
  codemask := h.codemask
  avail := h.avail
  room := h.room
  entries := fun i w hw =>
    (h.entries i w hw).congr rfl h.clearCode_le le_rfl (fun _ _ => rfl) (fun _ _ => rfl)
  previous := by
    have hprevious := h.previous
    cases t with
    | none => exact hprevious
    | some t =>
      obtain ⟨code, hcode, hspells, hfirst⟩ := hprevious
      exact ⟨code, hcode,
        hspells.congr rfl h.clearCode_le le_rfl (fun _ _ => rfl) (fun _ _ => rfl), hfirst⟩

/-- What `define` does as long as there is room. -/
theorem define_eq (c : GIFLZWContext) (oldcode : Nat) (hmask : c.codemask = 2 ^ c.codesize - 1)
    (hroom : c.avail < 4096) :
    c.define oldcode =
      { c with
        prefixes := Function.update c.prefixes c.avail (some oldcode)
        suffix := Function.update c.suffix c.avail c.firstchar
        avail := c.avail + 1
        codesize := if widens c.codesize (c.avail + 1) then c.codesize + 1 else c.codesize
        codemask :=
          if widens c.codesize (c.avail + 1) then c.codemask + (c.avail + 1) else c.codemask } := by
  rw [define, if_pos hroom]
  simp only [hmask]
  by_cases h : widens c.codesize (c.avail + 1)
  · rw [if_pos h, if_pos h]
    exact if_pos h
  · rw [if_neg h, if_neg h]
    exact if_neg h

end

section

variable {datasize : Nat} {c : GIFLZWContext} {t : Dictionary UInt8} {oldcode code : Nat}
  {w : List UInt8}

/-- The words of the codes that can be read next: they are defined, or are about to be. -/
def NextSpells (c : GIFLZWContext) (t : Dictionary UInt8) (code : Nat) (w : List UInt8) : Prop :=
  c.Spells code w ∨ code = c.avail ∧ c.avail < 4096 ∧ w = t.previous ++ t.previous.take 1

theorem NextSpells.lift {c' : GIFLZWContext} (h : c.NextSpells t code w)
    (hlift : ∀ {code v}, c.Spells code v → c'.Spells code v)
    (hnew : c.avail < 4096 → c'.Spells c.avail (t.previous ++ w.take 1))
    (hprevious : (t.previous.take 1).length = 1) : c'.Spells code w := by
  rcases h with hspells | ⟨rfl, hroom, hw⟩
  · exact hlift hspells
  · have htake : w.take 1 = t.previous.take 1 := by
      rw [List.length_take] at hprevious
      rw [hw, List.take_append_of_le_length (by omega)]
    rw [hw, ← htake]
    exact hnew hroom

/-- A codeword is defined as the dictionary has it. -/
theorem Represents.extend (hdatasize : datasize < maxLZWBits) {c' : GIFLZWContext}
    (h : c.Represents datasize (some t)) (holdcode : c.oldcode = some oldcode)
    (hcode : c.NextSpells t code w) (hroom : c.avail < 4096) (hstackp : c'.stackp = 0)
    (hclear : c'.clearCode = c.clearCode) (hfirstchar : w.take 1 = [c'.firstchar])
    (holdcode' : c'.oldcode = some code)
    (hprefixes : c'.prefixes = Function.update c.prefixes c.avail (some oldcode))
    (hsuffix : c'.suffix = Function.update c.suffix c.avail c'.firstchar)
    (havail' : c'.avail = c.avail + 1)
    (hcodesize : c'.codesize =
      if widens c.codesize (c.avail + 1) then c.codesize + 1 else c.codesize)
    (hcodemask : c'.codemask =
      if widens c.codesize (c.avail + 1) then c.codemask + (c.avail + 1) else c.codemask) :
    c'.Represents datasize (some (follow (dictionaryCapacity datasize) (some t) w)) := by
  have hpow := two_pow_le_of_lt hdatasize
  have havail : c.avail = 2 ^ datasize + 2 + t.entries.length := h.avail
  have hcapacity : dictionaryCapacity datasize = 4096 - (2 ^ datasize + 2) := rfl
  obtain ⟨previous, hprevious, hspells, htake⟩ := h.previous
  obtain rfl : oldcode = previous := Option.some.inj (holdcode.symm.trans hprevious)
  have hfollow : follow (dictionaryCapacity datasize) (some t) w =
      ⟨t.entries ++ [t.previous ++ w.take 1], w⟩ := by
    rw [follow, if_pos (by omega)]
  have hlift : ∀ {code v}, c.Spells code v → c'.Spells code v := by
    intro code v hv
    refine hv.congr hclear h.clearCode_le (by omega) (fun code hlt => ?_) (fun code hlt => ?_)
    · rw [hprefixes, Function.update_of_ne (Nat.ne_of_lt hlt)]
    · rw [hsuffix, Function.update_of_ne (Nat.ne_of_lt hlt)]
  have hnew : c'.Spells c.avail (t.previous ++ w.take 1) := by
    have hlast : c'.suffix c.avail = c'.firstchar := by rw [hsuffix, Function.update_self]
    have hlink : c'.prefixes c.avail = some oldcode := by rw [hprefixes, Function.update_self]
    rw [hfirstchar, ← hlast]
    have hle := h.clearCode_le
    exact .entry (by omega) (by omega) (hspells.code_lt hle) hlink (hlift hspells)
  have hwidth := width_succ datasize hroom
  rw [hfollow]
  have hlength : (t.entries ++ [t.previous ++ w.take 1]).length = t.entries.length + 1 := by simp
  have hcodesize' : c.codesize = codeWidth datasize (some t) := h.codesize
  constructor
  case stackp => exact hstackp
  case clearCode => rw [hclear, h.clearCode]
  case roots =>
    intro a ha
    rw [hsuffix, Function.update_of_ne (by omega), h.roots a ha]
  case codesize =>
    rw [hcodesize, hcodesize', codeWidth, codeWidth, ← havail]
    simp only [List.length_append, List.length_singleton, ← Nat.add_assoc, ← havail]
    exact hwidth.symm
  case codemask =>
    rw [hcodemask, hcodesize, h.codemask]
    split_ifs with hwidens
    · have hlt : c.avail < 2 ^ c.codesize := by
        rw [hcodesize']
        exact lt_two_pow_codeWidth t (by omega) hroom
      have heq : c.avail + 1 = 2 ^ c.codesize := ((widens_iff (by omega) hlt).mp hwidens).1
      rw [heq, pow_succ]
      omega
    · rfl
  case avail =>
    change c'.avail = 2 ^ datasize + 2 + (t.entries ++ [t.previous ++ w.take 1]).length
    omega
  case room =>
    change (t.entries ++ [t.previous ++ w.take 1]).length ≤ dictionaryCapacity datasize
    omega
  case entries =>
    intro i v hv
    have hv : (t.entries ++ [t.previous ++ w.take 1])[i]? = some v := hv
    rcases Nat.lt_or_ge i t.entries.length with hi | hi
    · rw [List.getElem?_append_left hi] at hv
      exact hlift (h.entries i v hv)
    · obtain ⟨hlt, -⟩ := List.getElem?_eq_some_iff.mp hv
      rw [List.length_append, List.length_singleton] at hlt
      obtain rfl : i = t.entries.length := by omega
      rw [List.getElem?_concat_length] at hv
      rw [← havail, ← Option.some.inj hv]
      exact hnew
  case previous =>
    exact ⟨code, holdcode', hcode.lift hlift (fun _ => hnew) (by rw [htake]; rfl), hfirstchar⟩

/-- With all codes defined, only the last word changes. -/
theorem Represents.replace (hdatasize : datasize < maxLZWBits) {c' : GIFLZWContext}
    (h : c.Represents datasize (some t)) (hcode : c.NextSpells t code w) (hroom : ¬c.avail < 4096)
    (hstackp : c'.stackp = 0) (hclear : c'.clearCode = c.clearCode)
    (hfirstchar : w.take 1 = [c'.firstchar]) (holdcode' : c'.oldcode = some code)
    (hprefixes : c'.prefixes = c.prefixes) (hsuffix : c'.suffix = c.suffix)
    (havail' : c'.avail = c.avail) (hcodesize : c'.codesize = c.codesize)
    (hcodemask : c'.codemask = c.codemask) :
    c'.Represents datasize (some (follow (dictionaryCapacity datasize) (some t) w)) := by
  have hpow := two_pow_le_of_lt hdatasize
  have havail : c.avail = 2 ^ datasize + 2 + t.entries.length := h.avail
  have hcapacity : dictionaryCapacity datasize = 4096 - (2 ^ datasize + 2) := rfl
  have hfollow : follow (dictionaryCapacity datasize) (some t) w = ⟨t.entries, w⟩ := by
    rw [follow, if_neg (by omega)]
  have hlift : ∀ {code v}, c.Spells code v → c'.Spells code v := by
    intro code v hv
    refine hv.congr hclear h.clearCode_le (by omega) (fun code _ => ?_) (fun code _ => ?_)
    · rw [hprefixes]
    · rw [hsuffix]
  rw [hfollow]
  constructor
  case stackp => exact hstackp
  case clearCode => rw [hclear, h.clearCode]
  case roots => rw [hsuffix]; exact h.roots
  case codesize => rw [hcodesize, h.codesize]; rfl
  case codemask => rw [hcodemask, hcodesize, h.codemask]
  case avail => rw [havail', havail]; rfl
  case room => exact h.room
  case entries => exact fun i v hv => hlift (h.entries i v hv)
  case previous =>
    obtain ⟨_, _, _, htake⟩ := h.previous
    refine ⟨code, holdcode', ?_, hfirstchar⟩
    exact hcode.lift hlift (fun hlt => absurd hlt hroom) (by rw [htake]; rfl)

theorem learn_eq (c : GIFLZWContext) (oldcode code first : Nat) :
    c.learn oldcode code first =
      { define oldcode { c.push (c.suffix first) with firstchar := c.suffix first } with
        oldcode := some code } := rfl

theorem Represents.of_learn (hdatasize : datasize < maxLZWBits) {first : UInt8}
    (h : c.Represents datasize (some t)) (holdcode : c.oldcode = some oldcode)
    (hfirst : c.suffix first.toNat = first) (hw : w.take 1 = [first])
    (hcode : c.NextSpells t code w) (stack : Nat → Option UInt8) (stackp : Nat)
    (rowBuffer : List UInt8) (rowsRemaining : Nat) (rows : List (List UInt8)) :
    Represents datasize
      { learn oldcode code first.toNat { c with stack, stackp } with
        stackp := 0, rowBuffer, rowsRemaining, rows }
      (some (follow (dictionaryCapacity datasize) (some t) w)) := by
  rw [learn_eq]
  simp only [hfirst]
  by_cases hroom : c.avail < 4096
  · have hdefine := define_eq { push first { c with stack, stackp } with firstchar := first }
      oldcode h.codemask hroom
    rw [hdefine]
    exact h.extend hdatasize holdcode hcode hroom rfl rfl hw rfl rfl rfl rfl rfl rfl
  · have hdefine : define oldcode { push first { c with stack, stackp } with firstchar := first } =
        { push first { c with stack, stackp } with firstchar := first } := if_neg hroom
    rw [hdefine]
    exact h.replace hdatasize hcode hroom rfl rfl hw rfl rfl rfl rfl rfl rfl

theorem Represents.nextSpells {symbol : Symbol UInt8} (h : c.Represents datasize (some t))
    (hsymbol : symbol ≠ .clear) (hfits : ∀ a, symbol = .root a → a.toNat < 2 ^ datasize)
    (hdatasize : datasize < maxLZWBits)
    (hword : word (dictionaryCapacity datasize) (some t) symbol = some w) :
    c.NextSpells t (codeNumber datasize symbol) w := by
  cases symbol with
  | clear => exact absurd rfl hsymbol
  | root a =>
    cases hword
    refine .inl (.root a ?_ (h.roots a (hfits a rfl)))
    rw [h.clearCode]
    exact hfits a rfl
  | entry i =>
    rw [word] at hword
    split_ifs at hword with hnew
    · have hpow := two_pow_le_of_lt hdatasize
      have havail : c.avail = 2 ^ datasize + 2 + t.entries.length := h.avail
      have hcapacity : dictionaryCapacity datasize = 4096 - (2 ^ datasize + 2) := rfl
      refine .inr ⟨?_, by omega, (Option.some.inj hword).symm⟩
      rw [codeNumber, hnew.1, havail]
    · exact .inl (h.entries i w hword)

end

/-! ## Handling a code -/

section

variable {datasize : Nat} {c : GIFLZWContext} {out w : List UInt8}

/-- The decoder goes on with this dictionary and these characters, or it is done and the characters
were the whole frame. -/
def Steps (datasize : Nat) (frame : GIFFrame) (c : GIFLZWContext) (t : Option (Dictionary UInt8))
    (out : List UInt8) (outcome : LZWOutcome) : Prop :=
  (∃ c', outcome = .running c' ∧ c'.Represents datasize t ∧ c'.Rowed frame out ∧
    c'.datum = c.datum ∧ c'.bits = c.bits) ∨
  ∃ c', outcome = .done c' ∧ Shows frame c'.rows out

theorem handleCode_clear {t : Option (Dictionary UInt8)} (h : c.Represents frame.datasize t)
    (hrowed : c.Rowed frame out) :
    c.Steps frame.datasize frame none out
      (c.handleCode memory outputRow frame (codeNumber frame.datasize .clear)) := by
  rw [handleCode, codeNumber, if_pos h.clearCode.symm]
  refine .inl ⟨_, rfl, ?_, ?_, rfl, rfl⟩
  · exact {
      stackp := h.stackp
      clearCode := h.clearCode
      roots := h.roots
      codesize := rfl
      codemask := rfl
      avail := by rw [← h.clearCode]; rfl
      room := Nat.zero_le _
      entries := fun i w hw => by cases hw
      previous := rfl }
  · exact ⟨hrowed.flatten, hrowed.rows, hrowed.rowBuffer, hrowed.rowsRemaining, hrowed.height⟩

/-- The first code behind a clear code. The second one is as wide only if there are four roots. -/
theorem handleCode_first (haccept : ∀ rows, outputRow rows = true)
    (hdatasize : frame.datasize < maxLZWBits)
    (hsize : 2 ≤ frame.datasize ∨ frame.width * frame.height ≤ 1) {a : UInt8}
    (ha : a.toNat < 2 ^ frame.datasize) (h : c.Represents frame.datasize none)
    (hrowed : c.Rowed frame out) :
    c.Steps frame.datasize frame (some ⟨[], [a]⟩) (out ++ [a])
      (c.handleCode memory outputRow frame a.toNat) := by
  have hclear := h.clearCode
  have holdcode : c.oldcode = none := h.previous
  have hnotClear : a.toNat ≠ c.clearCode := by omega
  have hnotEnd : a.toNat ≠ c.clearCode + 1 := by omega
  rw [handleCode, if_neg hnotClear, if_neg hnotEnd, holdcode]
  simp only [h.roots a ha]
  rcases emit_emits haccept a hrowed with
    ⟨rowBuffer, rows, rowsRemaining, hrun, hrowed'⟩ | ⟨c', hdone, hshows⟩
  · rw [hrun, LZWOutcome.running_andThen]
    refine .inl ⟨_, rfl, ?_, ?_, rfl, rfl⟩
    · have hlength := hrowed'.length_lt
      rw [List.length_append, List.length_singleton] at hlength
      have hpow : 2 ^ 2 ≤ 2 ^ frame.datasize := Nat.pow_le_pow_right (by omega) (by omega)
      have hwidth : (2 ^ frame.datasize + 2 + 0).size ≤ frame.datasize + 1 :=
        Nat.size_le.mpr (by rw [pow_succ]; omega)
      have hbits : maxLZWBits = 12 := rfl
      exact {
        stackp := h.stackp
        clearCode := h.clearCode
        roots := h.roots
        codesize := by
          change c.codesize =
            min maxLZWBits (max (frame.datasize + 1) (2 ^ frame.datasize + 2 + 0).size)
          rw [h.codesize, codeWidth]
          omega
        codemask := h.codemask
        avail := h.avail
        room := Nat.zero_le _
        entries := fun i w hw => by cases hw
        previous := by
          refine ⟨a.toNat, rfl, .root a (by simpa [hclear] using ha) (h.roots a ha), ?_⟩
          simp }
    · exact ⟨hrowed'.flatten, hrowed'.rows, hrowed'.rowBuffer, hrowed'.rowsRemaining,
        hrowed'.height⟩
  · rw [hdone, LZWOutcome.done_andThen]
    exact .inr ⟨c', rfl, hshows⟩

/-- The characters that a code puts on the stack before the last one. -/
theorem expand_nextSpells (memory : LZWMemory)
    (hdatasize : datasize < maxLZWBits) {t : Dictionary UInt8}
    {oldcode code : Nat} (h : c.Represents datasize (some t)) (holdcode : c.oldcode = some oldcode)
    (hcode : c.NextSpells t code w) :
    ∃ code' c' first rest stack stackp,
      (if c.avail ≤ code then (oldcode, c.push c.firstchar) else (code, c)) = (code', c') ∧
      c'.stackp ≠ maxBytes ∧ w = first :: rest ∧ c.suffix first.toNat = first ∧
      c'.expand memory maxBytes code' = some (first.toNat, { c with stack, stackp }) ∧
      stacked memory { c with stack, stackp } stackp = rest := by
  have hmax : maxBytes = 4097 := rfl
  have havail := h.avail_le hdatasize
  have hstackp := h.stackp
  rcases hcode with hspells | ⟨rfl, hroom, rfl⟩
  · have hlt := hspells.code_lt h.clearCode_le
    have hlength := hspells.length_le
    obtain ⟨first, rest, stack, stackp, hw, hfirst, hexpand, hstacked⟩ :=
      Spells.expand memory c hspells havail rfl rfl rfl (by omega : w.length ≤ maxBytes) (by omega)
    refine ⟨code, c, first, rest, stack, stackp, if_neg (by omega), by omega, hw, hfirst, hexpand,
      ?_⟩
    rw [hstacked, hstackp, stacked, List.append_nil]
  · obtain ⟨previous, hprevious, hspells, htake⟩ := h.previous
    obtain rfl : oldcode = previous := Option.some.inj (holdcode.symm.trans hprevious)
    have hlt := hspells.code_lt h.clearCode_le
    have hlength := hspells.length_le
    have hpushed : (c.push c.firstchar).stackp = 1 := by
      rw [push, hstackp]
    obtain ⟨first, rest, stack, stackp, hw, hfirst, hexpand, hstacked⟩ :=
      Spells.expand memory (c.push c.firstchar) hspells havail rfl rfl rfl
        (by omega : t.previous.length ≤ maxBytes) (by omega)
    refine ⟨oldcode, c.push c.firstchar, first, rest ++ [c.firstchar], stack, stackp,
      if_pos le_rfl, by omega, ?_, hfirst, hexpand, ?_⟩
    · rw [htake, hw, List.cons_append]
    · have hone : (c.push c.firstchar).stacked memory 1 = [c.firstchar] := by
        have hpush := stacked_push memory c c.firstchar
        rw [hstackp] at hpush
        exact hpush
      rw [hpushed, hone] at hstacked
      rw [← hstacked]
      exact stacked_congr fun _ _ => rfl

theorem stacked_learn (memory : LZWMemory) (c : GIFLZWContext) (oldcode code first : Nat) :
    (c.learn oldcode code first).stackp = c.stackp + 1 ∧
      (c.learn oldcode code first).stacked memory (c.stackp + 1) =
        c.suffix first :: c.stacked memory c.stackp := by
  constructor
  · rw [learn_eq, stackp_define]
    rfl
  · rw [← stacked_push]
    refine stacked_congr fun i _ => ?_
    rw [learn_eq, stack_define]

/-- A code behind another one. -/
theorem handleCode_next (haccept : ∀ rows, outputRow rows = true)
    (hdatasize : frame.datasize < maxLZWBits) {t : Dictionary UInt8} {symbol : Symbol UInt8}
    (hsymbol : symbol ≠ .clear) (hfits : ∀ a, symbol = .root a → a.toNat < 2 ^ frame.datasize)
    (hword : word (dictionaryCapacity frame.datasize) (some t) symbol = some w)
    (h : c.Represents frame.datasize (some t)) (hrowed : c.Rowed frame out)
    (hlength : (out ++ w).length ≤ frame.width * frame.height) :
    c.Steps frame.datasize frame
      (some (follow (dictionaryCapacity frame.datasize) (some t) w)) (out ++ w)
      (c.handleCode memory outputRow frame (codeNumber frame.datasize symbol)) := by
  have hcode := h.nextSpells hsymbol hfits hdatasize hword
  obtain ⟨oldcode, holdcode, -⟩ := h.previous
  have hclear := h.clearCode
  have hne : codeNumber frame.datasize symbol ≠ c.clearCode ∧
      codeNumber frame.datasize symbol ≠ c.clearCode + 1 := by
    cases symbol with
    | clear => exact absurd rfl hsymbol
    | root a =>
      have := hfits a rfl
      rw [codeNumber]
      omega
    | entry i =>
      rw [codeNumber]
      omega
  generalize codeNumber frame.datasize symbol = code at hcode hne
  obtain ⟨code', c', first, rest, stack, stackp, hstart, hfull, hw, hfirst, hexpand, hstacked⟩ :=
    expand_nextSpells memory hdatasize h holdcode hcode
  rw [handleCode, if_neg hne.1, if_neg hne.2, holdcode]
  simp only [hstart, hexpand]
  rw [if_neg fun h => hfull h.2, copyStack]
  obtain ⟨hstackp, hlearned⟩ :=
    stacked_learn memory { c with stack, stackp } oldcode code first.toNat
  simp only [hfirst, hstacked] at hlearned hstackp
  rw [← hw] at hlearned
  rw [hstackp, ← hlearned]
  rw [← hlearned] at hlength
  have hrows : Rowed frame (learn oldcode code first.toNat { c with stack, stackp }) out := by
    rw [learn_eq, define_eq_with]
    exact ⟨hrowed.flatten, hrowed.rows, hrowed.rowBuffer, hrowed.rowsRemaining, hrowed.height⟩
  rcases copyOut_emits haccept hrows hstackp hlength with
    ⟨rowBuffer, rows, rowsRemaining, hrun, hrowed'⟩ | ⟨d, hdone, hshows⟩
  · refine .inl ⟨_, hrun, ?_, hrowed', ?_, ?_⟩
    · have htake : w.take 1 = [first] := by
        rw [hw]
        rfl
      rw [hlearned]
      exact h.of_learn hdatasize holdcode hfirst htake hcode stack stackp rowBuffer rowsRemaining
        rows
    · rw [learn_eq, define_eq_with]
      rfl
    · rw [learn_eq, define_eq_with]
      rfl
  · exact .inr ⟨d, hdone, hshows⟩

/-- Handling the code of a symbol emits its word. -/
theorem handleCode_steps (haccept : ∀ rows, outputRow rows = true)
    (hdatasize : frame.datasize < maxLZWBits)
    (hsize : 2 ≤ frame.datasize ∨ frame.width * frame.height ≤ 1)
    {t : Option (Dictionary UInt8)} {symbol : Symbol UInt8}
    (hfits : ∀ a, symbol = .root a → a.toNat < 2 ^ frame.datasize)
    (hword : word (dictionaryCapacity frame.datasize) t symbol = some w)
    (h : c.Represents frame.datasize t) (hrowed : c.Rowed frame out)
    (hlength : (out ++ w).length ≤ frame.width * frame.height) :
    c.Steps frame.datasize frame (next (dictionaryCapacity frame.datasize) t symbol) (out ++ w)
      (c.handleCode memory outputRow frame (codeNumber frame.datasize symbol)) := by
  by_cases hclear : symbol = .clear
  · subst hclear
    cases hword
    rw [List.append_nil]
    exact handleCode_clear h hrowed
  · rw [next_eq_follow hclear hword]
    cases t with
    | some t => exact handleCode_next haccept hdatasize hclear hfits hword h hrowed hlength
    | none =>
      cases symbol with
      | clear => exact absurd rfl hclear
      | root a =>
        cases hword
        exact handleCode_first haccept hdatasize hsize (hfits a rfl) h hrowed
      | entry i => cases hword

end

end GIFLZWContext

end Odyssey.ImageDecoders
