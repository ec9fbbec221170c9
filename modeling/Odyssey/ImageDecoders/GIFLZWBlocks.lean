import Odyssey.ImageDecoders.GIFLZW

/-!
# The blocks of a frame

The decoder keeps its state between two blocks, and the loop over the blocks ends when there are no
rows left. So only the bytes of all blocks in a row count.
-/
namespace Odyssey.ImageDecoders

namespace GIFLZWContext

variable {memory : LZWMemory} {outputRow : List (List UInt8) → Bool} {frame : GIFFrame}

/-- Rows are left, and the row buffer is not full. -/
structure Open (frame : GIFFrame) (c : GIFLZWContext) : Prop where
  rowBuffer : c.rowBuffer.length ≠ frame.width
  rowsRemaining : c.rowsRemaining ≠ 0

/-- As long as the decoder runs it is open, and when it is done no rows are left. -/
def Proper (frame : GIFFrame) : LZWOutcome → Prop
  | .running c => c.Open frame
  | .done c => c.rowsRemaining = 0
  | .failed _ => True

theorem Proper.andThen {outcome : LZWOutcome} {f : GIFLZWContext → LZWOutcome}
    (h : Proper frame outcome) (hf : ∀ c, c.Open frame → Proper frame (f c)) :
    Proper frame (outcome.andThen f) := by
  cases outcome with
  | running c => exact hf c h
  | done c => exact h
  | failed c => trivial

variable {c : GIFLZWContext}

theorem proper_emit (character : UInt8) (h : c.Open frame) :
    Proper frame (emit outputRow frame character c) := by
  rw [emit]
  simp only
  split_ifs with hfull hrefused hlast
  · trivial
  · exact hlast
  · refine ⟨fun hzero => ?_, hlast⟩
    rw [← hfull, List.length_append] at hzero
    simp at hzero
  · exact ⟨hfull, h.rowsRemaining⟩

theorem proper_copyOut (stackp : Nat) (h : c.Open frame) :
    Proper frame (c.copyOut memory outputRow frame stackp) := by
  induction stackp generalizing c with
  | zero => exact h
  | succ stackp ih =>
    rw [copyOut]
    have hopen : Open frame { c with stackp } := ⟨h.rowBuffer, h.rowsRemaining⟩
    exact (proper_emit _ hopen).andThen fun _ => ih

/-- Expanding and learning a code does not touch the rows. -/
theorem Open.expand {c' : GIFLZWContext} {turns code first : Nat} (h : c.Open frame)
    (hexpand : c.expand memory turns code = some (first, c')) : c'.Open frame := by
  rw [expand_eq_some hexpand]
  exact ⟨h.rowBuffer, h.rowsRemaining⟩

theorem Open.learn (h : c.Open frame) (oldcode code first : Nat) :
    (c.learn oldcode code first).Open frame := by
  rw [GIFLZWContext.learn, define]
  simp only
  split_ifs <;> exact ⟨h.rowBuffer, h.rowsRemaining⟩

theorem proper_handleCode (code : Nat) (h : c.Open frame) :
    Proper frame (c.handleCode memory outputRow frame code) := by
  rw [handleCode]
  by_cases hclear : code = c.clearCode
  · rw [if_pos hclear]
    exact ⟨h.rowBuffer, h.rowsRemaining⟩
  rw [if_neg hclear]
  by_cases hend : code = c.clearCode + 1
  · rw [if_pos hend, if_neg h.rowsRemaining]
    trivial
  rw [if_neg hend]
  cases c.oldcode with
  | none =>
    exact (proper_emit _ h).andThen fun d hd => ⟨hd.rowBuffer, hd.rowsRemaining⟩
  | some oldcode =>
    obtain ⟨code', d, hstart, hd⟩ : ∃ code' d,
        (if c.avail ≤ code then (oldcode, c.push c.firstchar) else (code, c)) = (code', d) ∧
        d.Open frame := by
      split_ifs
      · exact ⟨_, _, rfl, h.rowBuffer, h.rowsRemaining⟩
      · exact ⟨_, _, rfl, h⟩
    simp only [hstart]
    split_ifs
    · trivial
    cases hexpand : d.expand memory maxBytes code' with
    | none => trivial
    | some found => exact proper_copyOut _ ((hd.expand hexpand).learn oldcode code found.1)

theorem proper_codeLoop (turns : Nat) (h : c.Open frame) :
    Proper frame (c.codeLoop memory outputRow frame turns) := by
  induction turns generalizing c with
  | zero => exact h
  | succ turns ih =>
    rw [codeLoop]
    split_ifs
    · have hopen : c.takeCode.2.Open frame := ⟨h.rowBuffer, h.rowsRemaining⟩
      exact (proper_handleCode _ hopen).andThen fun _ => ih
    · exact h

theorem proper_doBytes (block : List UInt8) (h : c.Open frame) :
    Proper frame (c.doBytes memory outputRow frame block) := by
  induction block generalizing c with
  | nil => exact h
  | cons byte block ih =>
    rw [doBytes]
    have hopen : (c.feed byte).Open frame := ⟨h.rowBuffer, h.rowsRemaining⟩
    exact (proper_codeLoop _ hopen).andThen fun _ => ih

theorem doBytes_append (block block' : List UInt8) (c : GIFLZWContext) :
    c.doBytes memory outputRow frame (block ++ block') =
      (c.doBytes memory outputRow frame block).andThen (doBytes memory outputRow frame block') := by
  induction block generalizing c with
  | nil => rfl
  | cons byte block ih =>
    rw [List.cons_append, doBytes, doBytes]
    cases (c.feed byte).codeLoop memory outputRow frame (c.bits + 8) with
    | running d =>
      simp only [LZWOutcome.running_andThen]
      exact ih d
    | done d => simp only [LZWOutcome.done_andThen]
    | failed d => simp only [LZWOutcome.failed_andThen]

/-- The rows and the success of an outcome. -/
def result : LZWOutcome → List (List UInt8) × Bool
  | .running c => (c.rows, true)
  | .done c => (c.rows, true)
  | .failed c => (c.rows, false)

theorem decodeBlocks_of_not_open (blocks : List (List UInt8)) (h : ¬c.Open frame) :
    c.decodeBlocks memory outputRow frame blocks = (c, true) := by
  induction blocks with
  | nil => rfl
  | cons block blocks ih =>
    rw [decodeBlocks]
    by_cases hrows : c.rowsRemaining = 0
    · rw [if_pos hrows]
    · have hfull : c.rowBuffer.length = frame.width := by
        by_contra hne
        exact h ⟨hne, hrows⟩
      rw [if_neg hrows, doLZW, if_pos hfull]
      exact ih

/-- The blocks are read as one. -/
theorem decodeBlocks_eq (blocks : List (List UInt8)) (h : c.Open frame) :
    ((c.decodeBlocks memory outputRow frame blocks).1.rows,
        (c.decodeBlocks memory outputRow frame blocks).2) =
      result (c.doBytes memory outputRow frame blocks.flatten) := by
  induction blocks generalizing c with
  | nil => rfl
  | cons block blocks ih =>
    have hproper := @proper_doBytes memory outputRow frame c block h
    rw [List.flatten_cons, doBytes_append, decodeBlocks, if_neg h.rowsRemaining, doLZW,
      if_neg h.rowBuffer]
    cases hrun : c.doBytes memory outputRow frame block with
    | running d =>
      rw [hrun] at hproper
      exact ih hproper
    | done d =>
      rw [hrun] at hproper
      have hclosed : ¬d.Open frame := fun hopen => hopen.rowsRemaining hproper
      simp only [decodeBlocks_of_not_open blocks hclosed, LZWOutcome.done_andThen, result]
    | failed d => rfl

end GIFLZWContext

namespace GIFFrame

open GIFLZWContext

variable {memory : LZWMemory} {outputRow : List (List UInt8) → Bool} {frame : GIFFrame}

/-- A frame that has no pixels has no rows. -/
theorem decode_of_no_pixels {c : GIFLZWContext} (hprepare : prepareToDecode frame = some c)
    (h : ¬c.Open frame) (blocks : List (List UInt8)) :
    frame.decode memory outputRow blocks = (c.rows, true) := by
  rw [decode, hprepare]
  simp only [decodeBlocks_of_not_open blocks h]

theorem decode_eq_result {c : GIFLZWContext} (hprepare : prepareToDecode frame = some c)
    (h : c.Open frame) (blocks : List (List UInt8)) :
    frame.decode memory outputRow blocks =
      result (c.doBytes memory outputRow frame blocks.flatten) := by
  rw [decode, hprepare, ← decodeBlocks_eq blocks h]

/-- Only the bytes of all blocks in a row count. -/
theorem decode_congr_flatten {blocks blocks' : List (List UInt8)}
    (h : blocks.flatten = blocks'.flatten) :
    frame.decode memory outputRow blocks = frame.decode memory outputRow blocks' := by
  cases hprepare : prepareToDecode frame with
  | none => rw [decode, decode, hprepare]
  | some c =>
    by_cases hopen : c.Open frame
    · rw [decode_eq_result hprepare hopen, decode_eq_result hprepare hopen, h]
    · rw [decode_of_no_pixels hprepare hopen, decode_of_no_pixels hprepare hopen]

end GIFFrame

end Odyssey.ImageDecoders
