import Mathlib.Algebra.GroupWithZero.Nat
import Mathlib.Data.List.Basic

/-!
# Strings

The characters of a `WTF::String` are UTF-16 code units. A null string is not told apart from an
empty one.
-/
namespace Odyssey.WTF

abbrev Text := List UInt16

/-- The code units of a string of the basic multilingual plane. -/
def text (s : String) : Text := s.toList.map fun c => c.toNat.toUInt16

namespace Text

/-- `String::operator[]`, which reads zero beyond the end. -/
def charAt (s : Text) (i : Nat) : UInt16 := s.getD i 0

def substring (s : Text) (start length : Nat) : Text := (s.drop start).take length

/-- `String::find` for one character. -/
def find (s : Text) (c : UInt16) (start : Nat) : Option Nat :=
  ((s.drop start).findIdx? (· == c)).map (start + ·)

/-- `String::split`. -/
def split (s : Text) (separator : UInt16) (allowEmptyEntries : Bool) : List Text :=
  if allowEmptyEntries then s.splitOn separator
  else (s.splitOn separator).filter fun entry => !entry.isEmpty

/-- `String::startsWith` without case; the comparison is that of `equalIgnoringCase`. -/
def startsWithIgnoringCase (equalIgnoringCase : Text → Text → Bool) (s part : Text) : Bool :=
  decide (part.length ≤ s.length) && equalIgnoringCase (s.take part.length) part

/-- `String::endsWith` without case. -/
def endsWithIgnoringCase (equalIgnoringCase : Text → Text → Bool) (s part : Text) : Bool :=
  decide (part.length ≤ s.length) && equalIgnoringCase (s.drop (s.length - part.length)) part

/-- The bytes that `convertUTF16ToUTF8` writes for a character. -/
def utf8Bytes (ch : Nat) : List Nat :=
  if ch < 0x80 then [ch]
  else if ch < 0x800 then [0xC0 + ch / 64, 0x80 + ch % 64]
  else if ch < 0x10000 then [0xE0 + ch / 4096, 0x80 + ch / 64 % 64, 0x80 + ch % 64]
  else [0xF0 + ch / 262144, 0x80 + ch / 4096 % 64, 0x80 + ch / 64 % 64, 0x80 + ch % 64]

/-- `String::utf8`. A surrogate without a partner is converted like any other unit. -/
def utf8 : Text → List Nat
  | [] => []
  | [c] => utf8Bytes c.toNat
  | c :: d :: s =>
    if 0xD800 ≤ c.toNat ∧ c.toNat ≤ 0xDBFF ∧ 0xDC00 ≤ d.toNat ∧ d.toNat ≤ 0xDFFF then
      utf8Bytes ((c.toNat - 0xD800) * 1024 + (d.toNat - 0xDC00) + 0x10000) ++ utf8 s
    else utf8Bytes c.toNat ++ utf8 (d :: s)

/-! ## Entries at the end -/

theorem intercalate_append (c : UInt16) {entries entries' : List Text} (h : entries ≠ [])
    (h' : entries' ≠ []) :
    [c].intercalate (entries ++ entries') =
      [c].intercalate entries ++ c :: [c].intercalate entries' := by
  induction entries with
  | nil => exact absurd rfl h
  | cons entry entries ih =>
    cases entries with
    | nil => simp [List.intercalate_cons_of_ne_nil h']
    | cons entry' entries =>
      have hne : entry' :: entries ≠ [] := by simp
      rw [List.cons_append, List.intercalate_cons_of_ne_nil (by simp), ih hne,
        List.intercalate_cons_of_ne_nil (l := entry) hne]
      simp only [List.append_assoc]

/-- The last entries of a text are those of a suffix after the separator. -/
theorem splitOn_isSuffix_iff {s s' : Text} {c : UInt16} :
    s.splitOn c <:+ s'.splitOn c ↔ s = s' ∨ (c :: s) <:+ s' := by
  constructor
  · rintro ⟨entries, hentries⟩
    have hs : [c].intercalate (s.splitOn c) = s := List.intercalate_splitOn c
    have hs' : [c].intercalate (s'.splitOn c) = s' := List.intercalate_splitOn c
    cases entries with
    | nil =>
      rw [List.nil_append] at hentries
      exact .inl (by rw [← hs, hentries, hs'])
    | cons entry entries =>
      have hne : s.splitOn c ≠ [] := List.splitOnP_ne_nil _ _
      rw [← hentries, intercalate_append c (by simp) hne, hs] at hs'
      exact .inr ⟨_, hs'⟩
  · rintro (rfl | ⟨before, rfl⟩)
    · exact List.suffix_rfl
    · exact ⟨before.splitOn c, (List.splitOnP_append_cons before s (by simp)).symm⟩

end Text

end Odyssey.WTF
