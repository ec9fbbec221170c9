import Mathlib.Data.List.Basic
import Mathlib.Data.Nat.Basic
import Mathlib.Tactic.Ring

/-!
# Byte strings with holes

Little-endian numbers in a list of bytes, and back-patching: a program is first written with a
blank for each value that is not known yet, and the blanks are overwritten later, in order.
-/
namespace Odyssey.Lib.Bytes

/-! ## Little-endian numbers -/

def littleEndian : Nat → Nat → List Nat
  | 0, _ => []
  | width + 1, value => value % 256 :: littleEndian width (value / 256)

@[simp] theorem length_littleEndian (width value : Nat) :
    (littleEndian width value).length = width := by
  induction width generalizing value with
  | zero => rfl
  | succ width ih => simp [littleEndian, ih]

def readByte (bytes : List Nat) (index : Nat) : Nat := bytes.getD index 0

/-- The number of `width` bytes stored at `index`. -/
def readLE (bytes : List Nat) : Nat → Nat → Nat
  | 0, _ => 0
  | width + 1, index => readByte bytes index + 256 * readLE bytes width (index + 1)

/-- The bytes `l` stand at `index`. -/
def At (bytes : List Nat) (index : Nat) (l : List Nat) : Prop :=
  ∀ i, i < l.length → bytes[index + i]? = l[i]?

section At

variable {bytes l r : List Nat} {index a : Nat}

@[simp] theorem at_nil : At bytes index [] := by simp [At]

theorem at_cons : At bytes index (a :: l) ↔ bytes[index]? = some a ∧ At bytes (index + 1) l := by
  constructor
  · intro h
    refine ⟨by simpa using h 0 (by simp), fun i hi => ?_⟩
    have := h (i + 1) (by simpa using hi)
    rw [List.getElem?_cons_succ] at this
    rw [← this]
    congr 1
    omega
  · rintro ⟨h0, h⟩ i hi
    cases i with
    | zero => simpa using h0
    | succ i =>
      rw [List.getElem?_cons_succ, ← h i (by simpa using hi)]
      congr 1
      omega

theorem at_append : At bytes index (l ++ r) ↔ At bytes index l ∧ At bytes (index + l.length) r := by
  induction l generalizing index with
  | nil => simp
  | cons a l ih =>
    rw [List.cons_append, at_cons, at_cons, ih, List.length_cons, and_assoc]
    rw [show index + 1 + l.length = index + (l.length + 1) by omega]

theorem at_of_append (pre l post : List Nat) : At (pre ++ l ++ post) pre.length l := by
  intro i hi
  rw [List.append_assoc, List.getElem?_append_right (Nat.le_add_right _ _),
    Nat.add_sub_cancel_left, List.getElem?_append_left hi]

theorem At.lt_length (h : At bytes index (a :: l)) : index < bytes.length :=
  (List.getElem?_eq_some_iff.1 (at_cons.1 h).1).1

theorem readByte_of_at (h : At bytes index (a :: l)) : readByte bytes index = a := by
  rw [readByte, List.getD_eq_getElem?_getD, (at_cons.1 h).1, Option.getD_some]

theorem readLE_of_at {width value : Nat} (h : At bytes index (littleEndian width value)) :
    readLE bytes width index = value % 256 ^ width := by
  induction width generalizing index value with
  | zero => simp [readLE, Nat.mod_one]
  | succ width ih =>
    rw [readLE, readByte_of_at h, ih (at_cons.1 h).2, Nat.pow_succ', Nat.mod_mul]

end At

/-! ## Back-patching -/

/-- A piece of a program: a byte, or a blank to be filled in later. -/
inductive Piece (α : Type) where
  | byte (b : Nat)
  | slot (a : α)

namespace Piece

variable {α : Type}

/-- The bytes of a program whose slots hold `content`. -/
def fill (content : α → List Nat) : List (Piece α) → List Nat
  | [] => []
  | .byte b :: ps => b :: fill content ps
  | .slot a :: ps => content a ++ fill content ps

def slots : List (Piece α) → List α
  | [] => []
  | .byte _ :: ps => slots ps
  | .slot a :: ps => a :: slots ps

/-- Each slot stands at its own place, when the program starts at `offset`. -/
def Placed (width place : α → Nat) : Nat → List (Piece α) → Prop
  | _, [] => True
  | offset, .byte _ :: ps => Placed width place (offset + 1) ps
  | offset, .slot a :: ps => place a = offset ∧ Placed width place (offset + width a) ps

theorem fill_append (content : α → List Nat) (ps qs : List (Piece α)) :
    fill content (ps ++ qs) = fill content ps ++ fill content qs := by
  induction ps with
  | nil => rfl
  | cons p ps ih => cases p <;> simp [fill, ih]

theorem fill_map_byte (content : α → List Nat) (l : List Nat) :
    fill content (l.map .byte) = l := by
  induction l with
  | nil => rfl
  | cons a l ih => simp [fill, ih]

theorem slots_map_byte (l : List Nat) : slots (l.map (.byte : Nat → Piece α)) = [] := by
  induction l with
  | nil => rfl
  | cons a l ih => simp [slots, ih]

theorem placed_map_byte (width place : α → Nat) (offset : Nat) (l : List Nat) :
    Placed width place offset (l.map .byte) := by
  induction l generalizing offset with
  | nil => trivial
  | cons a l ih => exact ih (offset + 1)

theorem slots_append (ps qs : List (Piece α)) : slots (ps ++ qs) = slots ps ++ slots qs := by
  induction ps with
  | nil => rfl
  | cons p ps ih => cases p <;> simp [slots, ih]

theorem length_fill {width : α → Nat} {content content' : α → List Nat}
    (h : ∀ a, (content a).length = width a) (h' : ∀ a, (content' a).length = width a)
    (ps : List (Piece α)) : (fill content ps).length = (fill content' ps).length := by
  induction ps with
  | nil => rfl
  | cons p ps ih => cases p <;> simp [fill, ih, h, h']

theorem placed_append {width place : α → Nat} {content : α → List Nat}
    (h : ∀ a, (content a).length = width a) {offset : Nat} {ps qs : List (Piece α)} :
    Placed width place offset (ps ++ qs) ↔ Placed width place offset ps ∧
      Placed width place (offset + (fill content ps).length) qs := by
  induction ps generalizing offset with
  | nil => simp [Placed, fill]
  | cons p ps ih =>
    cases p with
    | byte b =>
      simp only [List.cons_append, Placed, fill, ih, List.length_cons]
      rw [show offset + 1 + (fill content ps).length = offset + ((fill content ps).length + 1)
        by omega]
    | slot a =>
      simp only [List.cons_append, Placed, fill, ih, List.length_append, h, and_assoc,
        Nat.add_assoc]

end Piece

/-- Replace the bytes at `index` by `new`. -/
def overwrite (bytes : List Nat) (index : Nat) (new : List Nat) : List Nat :=
  bytes.take index ++ new ++ bytes.drop (index + new.length)

theorem overwrite_append (pre old new post : List Nat) (h : old.length = new.length) :
    overwrite (pre ++ (old ++ post)) pre.length new = pre ++ (new ++ post) := by
  rw [overwrite, List.take_left, ← h, ← List.drop_drop, List.drop_left, List.drop_left,
    List.append_assoc]

section Patch

variable {α : Type} {width place : α → Nat} {blank content : α → List Nat}

/-- Overwriting all slots of a program that was written with blanks gives the program with its
contents. -/
theorem foldl_overwrite (hblank : ∀ a, (blank a).length = width a)
    (hcontent : ∀ a, (content a).length = width a) (pre post : List Nat) (ps : List (Piece α))
    (hplaced : Piece.Placed width place pre.length ps) :
    (Piece.slots ps).foldl (fun bytes a => overwrite bytes (place a) (content a))
      (pre ++ (Piece.fill blank ps ++ post)) = pre ++ (Piece.fill content ps ++ post) := by
  induction ps generalizing pre with
  | nil => rfl
  | cons p ps ih =>
    cases p with
    | byte b =>
      have := ih (pre ++ [b]) (by simpa [Piece.Placed] using hplaced)
      simpa [Piece.slots, Piece.fill] using this
    | slot a =>
      obtain ⟨hplace, hrest⟩ := hplaced
      have := ih (pre ++ content a) (by simpa [hcontent] using hrest)
      rw [Piece.slots, List.foldl_cons, Piece.fill, hplace, List.append_assoc,
        overwrite_append _ _ _ _ ((hblank a).trans (hcontent a).symm)]
      simpa [Piece.fill] using this

end Patch

end Odyssey.Lib.Bytes
