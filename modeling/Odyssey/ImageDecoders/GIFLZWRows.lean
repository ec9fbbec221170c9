import Mathlib.Tactic.Ring
import Odyssey.ImageDecoders.GIFLZW

/-!
# The rows that the decoder hands over

The characters on the stack go into the row buffer one by one, and every full row is handed over.
When the client takes every row, the rows and the row buffer in a row are the characters so far.
-/
namespace Odyssey.ImageDecoders

namespace GIFLZWContext

variable {memory : LZWMemory} {outputRow : List (List UInt8) → Bool} {frame : GIFFrame}

/-- The characters on the stack, from the top. -/
def stacked (memory : LZWMemory) (c : GIFLZWContext) : Nat → List UInt8
  | 0 => []
  | n + 1 => c.stackAt memory n :: c.stacked memory n

variable {c : GIFLZWContext}

theorem stacked_congr {c' : GIFLZWContext} {n : Nat} (h : ∀ i < n, c'.stack i = c.stack i) :
    c'.stacked memory n = c.stacked memory n := by
  induction n with
  | zero => rfl
  | succ n ih =>
    rw [stacked, stacked, stackAt, stackAt, h n n.lt_succ_self, ih fun i hi => h i (by omega)]

theorem stacked_push (memory : LZWMemory) (c : GIFLZWContext) (character : UInt8) :
    (c.push character).stacked memory (c.stackp + 1) =
      character :: c.stacked memory c.stackp := by
  have htop : (c.push character).stackAt memory c.stackp = character := by
    simp [stackAt, push]
  rw [stacked, htop, stacked_congr fun i hi => ?_]
  exact Function.update_of_ne (Nat.ne_of_lt hi) _ _

/-- The characters so far are in the full rows and the row buffer. -/
structure Rowed (frame : GIFFrame) (c : GIFLZWContext) (out : List UInt8) : Prop where
  flatten : c.rows.flatten ++ c.rowBuffer = out
  rows : ∀ row ∈ c.rows, row.length = frame.width
  rowBuffer : c.rowBuffer.length < frame.width
  rowsRemaining : c.rowsRemaining ≠ 0
  height : c.rows.length + c.rowsRemaining = frame.height

/-- The rows of a frame with these colour indexes. -/
structure Shows (frame : GIFFrame) (rows : List (List UInt8)) (indexes : List UInt8) : Prop where
  flatten : rows.flatten = indexes
  height : rows.length = frame.height
  width : ∀ row ∈ rows, row.length = frame.width

theorem length_flatten_of_rows {rows : List (List UInt8)} {width : Nat}
    (h : ∀ row ∈ rows, row.length = width) : rows.flatten.length = rows.length * width := by
  induction rows with
  | nil => simp
  | cons row rows ih =>
    rw [List.flatten_cons, List.length_append, h row List.mem_cons_self,
      ih fun row hrow => h row (List.mem_cons_of_mem _ hrow), List.length_cons]
    ring

theorem Rowed.length_lt {out : List UInt8} (h : c.Rowed frame out) :
    out.length < frame.width * frame.height := by
  have hpos := h.rowsRemaining
  calc out.length
      = c.rows.length * frame.width + c.rowBuffer.length := by
        rw [← h.flatten, List.length_append, length_flatten_of_rows h.rows]
    _ < (c.rows.length + 1) * frame.width := by
        rw [Nat.succ_mul]
        exact Nat.add_lt_add_left h.rowBuffer _
    _ ≤ frame.height * frame.width :=
        Nat.mul_le_mul_right _ (by rw [← h.height]; omega)
    _ = frame.width * frame.height := Nat.mul_comm _ _

theorem Shows.length {rows : List (List UInt8)} {indexes : List UInt8}
    (h : Shows frame rows indexes) : indexes.length = frame.width * frame.height := by
  rw [← h.flatten, length_flatten_of_rows h.width, h.height, Nat.mul_comm]

/-- The decoder goes on with the rows of `out`, and all else as in `c`, or it is done and `out` was
the whole frame. -/
def Emits (frame : GIFFrame) (c : GIFLZWContext) (out : List UInt8) (outcome : LZWOutcome) : Prop :=
  (∃ rowBuffer rows rowsRemaining,
    outcome = .running { c with rowBuffer, rows, rowsRemaining } ∧
      Rowed frame { c with rowBuffer, rows, rowsRemaining } out) ∨
  ∃ c', outcome = .done c' ∧ Shows frame c'.rows out

theorem emit_emits (haccept : ∀ rows, outputRow rows = true) (character : UInt8)
    {out : List UInt8} (h : c.Rowed frame out) :
    c.Emits frame (out ++ [character]) (emit outputRow frame character c) := by
  have hpos := h.rowsRemaining
  have hheight := h.height
  rw [emit]
  by_cases hfull : (c.rowBuffer ++ [character]).length = frame.width
  · have hflatten : (c.rows ++ [c.rowBuffer ++ [character]]).flatten = out ++ [character] := by
      simp [← h.flatten]
    have hrows : ∀ row ∈ c.rows ++ [c.rowBuffer ++ [character]], row.length = frame.width := by
      intro row hrow
      rcases List.mem_append.mp hrow with hrow | hrow
      · exact h.rows row hrow
      · rw [List.mem_singleton.mp hrow, hfull]
    have hlength : (c.rows ++ [c.rowBuffer ++ [character]]).length = c.rows.length + 1 := by simp
    simp only [hfull, haccept, if_true, Bool.not_true, Bool.false_eq_true, if_false]
    split_ifs with hlast
    · exact .inr ⟨_, rfl, hflatten, by simp only [hlength]; omega, hrows⟩
    · refine .inl ⟨_, _, _, rfl, ?_, hrows, ?_, hlast, by simp only [hlength]; omega⟩
      · simpa using hflatten
      · exact Nat.lt_of_le_of_lt (Nat.zero_le _) h.rowBuffer
  · simp only [hfull, if_false]
    refine .inl ⟨_, _, _, rfl, ?_, h.rows, ?_, hpos, hheight⟩
    · simp [← h.flatten]
    · have := h.rowBuffer
      simp only [List.length_append, List.length_singleton] at hfull ⊢
      omega

/-- Copying the stack emits the characters on it. -/
theorem copyOut_emits (haccept : ∀ rows, outputRow rows = true) {n : Nat} {out : List UInt8}
    (h : c.Rowed frame out) (hstackp : c.stackp = n)
    (hlength : (out ++ c.stacked memory n).length ≤ frame.width * frame.height) :
    Emits frame { c with stackp := 0 } (out ++ c.stacked memory n)
      (c.copyOut memory outputRow frame n) := by
  induction n generalizing c out with
  | zero =>
    refine .inl ⟨c.rowBuffer, c.rows, c.rowsRemaining, ?_, ?_⟩
    · rw [copyOut, ← hstackp]
    · rw [stacked, List.append_nil]
      exact ⟨h.flatten, h.rows, h.rowBuffer, h.rowsRemaining, h.height⟩
  | succ n ih =>
    rw [stacked, ← List.singleton_append, ← List.append_assoc] at hlength ⊢
    rw [copyOut]
    have hrowed : Rowed frame { c with stackp := n } out :=
      ⟨h.flatten, h.rows, h.rowBuffer, h.rowsRemaining, h.height⟩
    rcases emit_emits haccept (c.stackAt memory n) hrowed with
      ⟨rowBuffer, rows, rowsRemaining, hrun, hrowed'⟩ | ⟨c', hdone, hshows⟩
    · rw [hrun, LZWOutcome.running_andThen]
      have hsame : stacked memory { c with stackp := n, rowBuffer, rows, rowsRemaining } n =
          c.stacked memory n := stacked_congr fun _ _ => rfl
      rw [← hsame] at hlength ⊢
      exact ih hrowed' rfl hlength
    · rw [hdone, LZWOutcome.done_andThen]
      -- The frame is full, so nothing is left on the stack.
      have hnil : c.stacked memory n = [] := by
        rw [List.length_append, hshows.length] at hlength
        exact List.length_eq_zero_iff.mp (by omega)
      rw [hnil, List.append_nil]
      exact .inr ⟨c', rfl, hshows⟩

end GIFLZWContext

end Odyssey.ImageDecoders
