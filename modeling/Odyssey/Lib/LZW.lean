import Mathlib.Algebra.GroupWithZero.Nat
import Mathlib.Data.List.Basic
import Mathlib.Data.Nat.Size
import Mathlib.Algebra.BigOperators.Group.List.Basic

/-!
# LZW

A word is sent as a list of symbols. Sender and receiver keep a dictionary: behind every symbol, the
previous word with the first letter of the new one becomes an entry, as long as there is room.
-/
namespace Odyssey.Lib.LZW

variable {α : Type*}

inductive Symbol (α : Type*) where
  | clear
  | root (a : α)
  | entry (i : Nat)
  deriving DecidableEq

/-- The entries since the last clear, and the last word. -/
structure Dictionary (α : Type*) where
  entries : List (List α)
  previous : List α

/-- The entries of a dictionary; right after a clear there is none. -/
def entries : Option (Dictionary α) → List (List α)
  | none => []
  | some t => t.entries

section

variable (capacity : Nat)

def follow : Option (Dictionary α) → List α → Dictionary α
  | none, word => ⟨[], word⟩
  | some t, word =>
    ⟨if t.entries.length < capacity then t.entries ++ [t.previous ++ word.take 1] else t.entries,
      word⟩

/-- The word of a symbol. An entry can be the one that the symbol itself defines. -/
def word : Option (Dictionary α) → Symbol α → Option (List α)
  | _, .clear => some []
  | _, .root a => some [a]
  | none, .entry _ => none
  | some t, .entry i =>
    if i = t.entries.length ∧ t.entries.length < capacity then
      some (t.previous ++ t.previous.take 1)
    else t.entries[i]?

/-- The dictionary behind a symbol. -/
def next (t : Option (Dictionary α)) (symbol : Symbol α) : Option (Dictionary α) :=
  match symbol with
  | .clear => none
  | symbol => some (follow capacity t ((word capacity t symbol).getD []))

def decode : Option (Dictionary α) → List (Symbol α) → Option (List α)
  | _, [] => some []
  | t, symbol :: symbols => do
    let w ← word capacity t symbol
    let rest ← decode (next capacity t symbol) symbols
    return w ++ rest

/-- The codes of the symbols, each with its width, which may depend on the dictionary. -/
def codes (width : Option (Dictionary α) → Nat) (number : Symbol α → Nat) :
    Option (Dictionary α) → List (Symbol α) → List (Nat × Nat)
  | _, [] => []
  | t, symbol :: symbols =>
    (width t, number symbol) :: codes width number (next capacity t symbol) symbols

end

/-! ## Packing -/

/-- The number of bits of the codes. -/
def size (codes : List (Nat × Nat)) : Nat := (codes.map Prod.fst).sum

/-- The codes one behind the other, the first one in the lowest bits. -/
def packed : List (Nat × Nat) → Nat
  | [] => 0
  | (width, number) :: codes => number + 2 ^ width * packed codes

@[simp] theorem size_cons (width number : Nat) (codes : List (Nat × Nat)) :
    size ((width, number) :: codes) = width + size codes := by
  rw [size, List.map_cons, List.sum_cons, size]

/-- The first code is taken from a number that begins with the packed codes. -/
theorem take_packed {width number stream : Nat} {codes : List (Nat × Nat)}
    (hnumber : number < 2 ^ width)
    (h : stream % 2 ^ size ((width, number) :: codes) = packed ((width, number) :: codes)) :
    stream % 2 ^ width = number ∧ stream / 2 ^ width % 2 ^ size codes = packed codes := by
  rw [size_cons, packed, pow_add] at h
  constructor
  · have hmod := congrArg (· % 2 ^ width) h
    simp only [Nat.mod_mul_right_mod, Nat.add_mul_mod_self_left] at hmod
    rw [hmod, Nat.mod_eq_of_lt hnumber]
  · rw [← Nat.mod_mul_right_div_self, h, Nat.add_mul_div_left _ _ (Nat.two_pow_pos width),
      Nat.div_eq_of_lt hnumber, Nat.zero_add]

theorem next_eq_follow {capacity : Nat} {t : Option (Dictionary α)} {symbol : Symbol α} {w : List α}
    (hsymbol : symbol ≠ .clear) (hword : word capacity t symbol = some w) :
    next capacity t symbol = some (follow capacity t w) := by
  cases symbol with
  | clear => exact absurd rfl hsymbol
  | root a => simp only [next, hword, Option.getD_some]
  | entry i => simp only [next, hword, Option.getD_some]

theorem decode_cons {capacity : Nat} {t : Option (Dictionary α)} {symbol : Symbol α}
    {symbols : List (Symbol α)} {out : List α}
    (h : decode capacity t (symbol :: symbols) = some out) :
    ∃ w rest, word capacity t symbol = some w ∧
      decode capacity (next capacity t symbol) symbols = some rest ∧ out = w ++ rest := by
  rw [decode] at h
  cases hw : word capacity t symbol with
  | none => simp [hw] at h
  | some w =>
    cases hrest : decode capacity (next capacity t symbol) symbols with
    | none => simp [hw, hrest] at h
    | some rest =>
      refine ⟨w, rest, rfl, rfl, ?_⟩
      simpa [hw, hrest] using h.symm

end Odyssey.Lib.LZW
