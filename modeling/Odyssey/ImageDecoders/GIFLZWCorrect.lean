import Mathlib.Data.Nat.Digits.Defs
import Odyssey.ImageDecoders.GIFLZWBlocks
import Odyssey.ImageDecoders.GIFLZWDictionary

/-!
# Frames are decoded exactly

The blocks of a frame in a row are a number, with the first byte lowest. If it begins with the codes
of symbols whose words are the colour indexes of the frame, decoding gives these indexes row by row.
That takes four roots: with less, the second code behind a clear code would have to be wider than
the first, and the decoder does not see that.
-/
namespace Odyssey.ImageDecoders

open Lib.LZW

/-- The codes of symbols for a data size. -/
def symbolCodes (datasize : Nat) :
    Option (Dictionary UInt8) → List (Symbol UInt8) → List (Nat × Nat) :=
  codes (dictionaryCapacity datasize) (codeWidth datasize) (codeNumber datasize)

/-- The number of a list of bytes, the first byte lowest. -/
def streamNumber (bytes : List UInt8) : Nat := Nat.ofDigits 256 (bytes.map UInt8.toNat)

/-- The bytes begin with the codes of these symbols, and the symbols spell the indexes. -/
structure Encodes (datasize : Nat) (symbols : List (Symbol UInt8)) (bytes indexes : List UInt8) :
    Prop where
  fits : ∀ a, .root a ∈ symbols → a.toNat < 2 ^ datasize
  decode : decode (dictionaryCapacity datasize) none symbols = some indexes
  size : size (symbolCodes datasize none symbols) ≤ 8 * bytes.length
  packed : streamNumber bytes % 2 ^ Lib.LZW.size (symbolCodes datasize none symbols) =
    packed (symbolCodes datasize none symbols)

namespace GIFLZWContext

variable {memory : LZWMemory} {outputRow : List (List UInt8) → Bool} {frame : GIFFrame}

/-- The decoder with `out` behind it and `symbols` to come, in its bit buffer and in `more` bytes of
the number `ahead`. -/
structure Awaits (frame : GIFFrame) (indexes : List UInt8) (more ahead : Nat) (c : GIFLZWContext)
    (t : Option (Dictionary UInt8)) (out : List UInt8) (symbols : List (Symbol UInt8)) :
    Prop where
  represents : c.Represents frame.datasize t
  rowed : c.Rowed frame out
  fits : ∀ a, .root a ∈ symbols → a.toNat < 2 ^ frame.datasize
  decode : ∃ rest, decode (dictionaryCapacity frame.datasize) t symbols = some rest ∧
    out ++ rest = indexes
  size : size (symbolCodes frame.datasize t symbols) ≤ c.bits + 8 * more
  packed :
    (c.datum + 2 ^ c.bits * ahead) % 2 ^ Lib.LZW.size (symbolCodes frame.datasize t symbols) =
      packed (symbolCodes frame.datasize t symbols)

section

variable {indexes out : List UInt8} {more ahead : Nat} {c : GIFLZWContext}
  {t : Option (Dictionary UInt8)} {symbols : List (Symbol UInt8)}

/-- There are symbols to come as long as the frame is not full. -/
theorem Awaits.cons (h : c.Awaits frame indexes more ahead t out symbols)
    (hlength : indexes.length = frame.width * frame.height) :
    ∃ symbol symbols', symbols = symbol :: symbols' := by
  cases symbols with
  | cons symbol symbols => exact ⟨symbol, symbols, rfl⟩
  | nil =>
    obtain ⟨rest, hrest, hout⟩ := h.decode
    cases hrest
    rw [List.append_nil] at hout
    have hlt := h.rowed.length_lt
    rw [hout, hlength] at hlt
    exact absurd hlt (Nat.lt_irrefl _)

theorem takeCode_eq (c : GIFLZWContext) (hmask : c.codemask = 2 ^ c.codesize - 1) :
    c.takeCode = (c.datum % 2 ^ c.codesize,
      { c with datum := c.datum / 2 ^ c.codesize, bits := c.bits - c.codesize }) := by
  rw [takeCode, hmask, Nat.and_two_pow_sub_one_eq_mod, Nat.shiftRight_eq_div_pow]

/-- The next code is that of the next symbol. -/
theorem Awaits.takeCode {symbol : Symbol UInt8} (hdatasize : frame.datasize < maxLZWBits)
    (h : c.Awaits frame indexes more ahead t out (symbol :: symbols))
    (hbits : c.codesize ≤ c.bits) :
    ∃ datum, c.takeCode =
        (codeNumber frame.datasize symbol, { c with datum, bits := c.bits - c.codesize }) ∧
      (datum + 2 ^ (c.bits - c.codesize) * ahead) % 2 ^ Lib.LZW.size
          (symbolCodes frame.datasize (next (dictionaryCapacity frame.datasize) t symbol) symbols) =
        Lib.LZW.packed
          (symbolCodes frame.datasize (next (dictionaryCapacity frame.datasize) t symbol) symbols) ∧
      Lib.LZW.size
          (symbolCodes frame.datasize (next (dictionaryCapacity frame.datasize) t symbol) symbols) ≤
        c.bits - c.codesize + 8 * more := by
  obtain ⟨rest, hrest, -⟩ := h.decode
  obtain ⟨w, -, hword, -⟩ := decode_cons hrest
  have hnumber := codeNumber_lt hdatasize h.represents.room
    (fun a ha => h.fits a (ha ▸ List.mem_cons_self)) hword
  have hpacked := h.packed
  have hsize := h.size
  rw [symbolCodes, codes] at hpacked hsize
  obtain ⟨hfirst, hothers⟩ := take_packed hnumber hpacked
  rw [size_cons] at hsize
  rw [← h.represents.codesize] at hfirst hothers hsize
  have hsplit : 2 ^ c.bits = 2 ^ c.codesize * 2 ^ (c.bits - c.codesize) := by
    rw [← pow_add, Nat.add_sub_cancel' hbits]
  rw [hsplit, Nat.mul_assoc] at hfirst hothers
  rw [Nat.add_mul_mod_self_left] at hfirst
  rw [Nat.add_mul_div_left _ _ (Nat.two_pow_pos _)] at hothers
  refine ⟨c.datum / 2 ^ c.codesize, ?_, hothers, ?_⟩
  · rw [takeCode_eq c h.represents.codemask, hfirst]
  · change Lib.LZW.size (codes _ _ _ _ _) ≤ _
    omega

/-- The decoder goes on, with fewer bits than a code has, or it is done. -/
def Reads (frame : GIFFrame) (indexes : List UInt8) (more ahead : Nat) (outcome : LZWOutcome) :
    Prop :=
  (∃ c t out symbols, outcome = .running c ∧ c.Awaits frame indexes more ahead t out symbols ∧
    c.bits < c.codesize) ∨
  ∃ c, outcome = .done c ∧ Shows frame c.rows indexes

theorem codeLoop_reads (memory : LZWMemory) (haccept : ∀ rows, outputRow rows = true)
    (hdatasize : frame.datasize < maxLZWBits)
    (hsize : 2 ≤ frame.datasize ∨ frame.width * frame.height ≤ 1)
    (hlength : indexes.length = frame.width * frame.height) {turns : Nat}
    (h : c.Awaits frame indexes more ahead t out symbols) (hturns : c.bits ≤ turns) :
    Reads frame indexes more ahead (c.codeLoop memory outputRow frame turns) := by
  induction turns generalizing c t out symbols with
  | zero =>
    refine .inl ⟨c, t, out, symbols, rfl, h, ?_⟩
    rw [h.represents.codesize]
    have := lt_codeWidth hdatasize t
    omega
  | succ turns ih =>
    rw [codeLoop]
    by_cases hbits : c.codesize ≤ c.bits
    · obtain ⟨symbol, symbols, rfl⟩ := h.cons hlength
      obtain ⟨datum, htake, hpacked, hmore⟩ := h.takeCode hdatasize hbits
      obtain ⟨rest, hrest, hindexes⟩ := h.decode
      obtain ⟨w, rest, hword, hdecode, rfl⟩ := decode_cons hrest
      rw [← List.append_assoc] at hindexes
      have hfull : (out ++ w).length ≤ frame.width * frame.height := by
        rw [← hlength, ← hindexes]
        simp
      have hrepresents : Represents frame.datasize
          { c with datum, bits := c.bits - c.codesize } t := by
        have := h.represents.of_rows (c.bits - c.codesize) datum c.stack c.rowBuffer
          c.rowsRemaining c.rows
        rwa [← h.represents.stackp] at this
      have hrowed : Rowed frame { c with datum, bits := c.bits - c.codesize } out :=
        ⟨h.rowed.flatten, h.rowed.rows, h.rowed.rowBuffer, h.rowed.rowsRemaining, h.rowed.height⟩
      have hpos := lt_codeWidth hdatasize t
      rw [← h.represents.codesize] at hpos
      rw [if_pos hbits]
      simp only [htake]
      rcases handleCode_steps haccept hdatasize hsize
        (fun a ha => h.fits a (ha ▸ List.mem_cons_self)) hword hrepresents hrowed hfull with
        ⟨c', hrun, hrepresents', hrowed', hdatum, hbits'⟩ | ⟨c', hdone, hshows⟩
      · rw [hrun, LZWOutcome.running_andThen]
        refine ih ⟨hrepresents', hrowed', fun a ha => h.fits a (List.mem_cons_of_mem _ ha),
          ⟨rest, hdecode, hindexes⟩, ?_, ?_⟩ ?_
        · rw [hbits']
          exact hmore
        · rw [hbits', hdatum]
          exact hpacked
        · rw [hbits']
          change c.bits - c.codesize ≤ turns
          omega
      · rw [hdone, LZWOutcome.done_andThen]
        -- The frame is full, so that the symbols to come are clear codes.
        have hnil : rest = [] := by
          rw [← hindexes, List.length_append, hshows.length] at hlength
          exact List.length_eq_zero_iff.mp (by omega)
        rw [hnil, List.append_nil] at hindexes
        exact .inr ⟨c', rfl, hindexes ▸ hshows⟩
    · rw [if_neg hbits]
      exact .inl ⟨c, t, out, symbols, rfl, h, by omega⟩

theorem doBytes_reads (memory : LZWMemory) (haccept : ∀ rows, outputRow rows = true)
    (hdatasize : frame.datasize < maxLZWBits)
    (hsize : 2 ≤ frame.datasize ∨ frame.width * frame.height ≤ 1)
    (hlength : indexes.length = frame.width * frame.height) {bytes : List UInt8}
    (h : c.Awaits frame indexes bytes.length (streamNumber bytes) t out symbols)
    (hbits : c.bits < c.codesize) :
    ∃ c', c.doBytes memory outputRow frame bytes = .done c' ∧ Shows frame c'.rows indexes := by
  induction bytes generalizing c t out symbols with
  | nil =>
    -- A symbol is to come, and its code is longer than what is left.
    obtain ⟨symbol, symbols, rfl⟩ := h.cons hlength
    have hsize := h.size
    rw [symbolCodes, codes, size_cons, ← h.represents.codesize, List.length_nil] at hsize
    omega
  | cons byte bytes ih =>
    have hfeed : (c.feed byte).Awaits frame indexes bytes.length (streamNumber bytes) t out
        symbols := by
      refine ⟨?_, ⟨h.rowed.flatten, h.rowed.rows, h.rowed.rowBuffer, h.rowed.rowsRemaining,
        h.rowed.height⟩, h.fits, h.decode, ?_, ?_⟩
      · have := h.represents.of_rows (c.bits + 8) (c.datum + byte.toNat <<< c.bits) c.stack
          c.rowBuffer c.rowsRemaining c.rows
        rwa [← h.represents.stackp] at this
      · have := h.size
        rw [List.length_cons] at this
        change _ ≤ c.bits + 8 + 8 * bytes.length
        omega
      · rw [← h.packed]
        have hnumber : streamNumber (byte :: bytes) = byte.toNat + 256 * streamNumber bytes := by
          rw [streamNumber, List.map_cons, Nat.ofDigits_cons]
          rfl
        have hdatum : c.datum + byte.toNat <<< c.bits + 2 ^ (c.bits + 8) * streamNumber bytes =
            c.datum + 2 ^ c.bits * streamNumber (byte :: bytes) := by
          rw [hnumber, Nat.shiftLeft_eq, pow_add]
          ring
        change (c.datum + byte.toNat <<< c.bits + 2 ^ (c.bits + 8) * streamNumber bytes) % _ = _
        rw [hdatum]
    rw [doBytes]
    have hturns : (c.feed byte).bits ≤ c.bits + 8 := le_rfl
    rcases codeLoop_reads memory haccept hdatasize hsize hlength hfeed hturns with
      ⟨c', t', out', symbols', hrun, hawaits, hbits'⟩ | ⟨c', hdone, hshows⟩
    · rw [hrun, LZWOutcome.running_andThen]
      exact ih hawaits hbits'
    · rw [hdone, LZWOutcome.done_andThen]
      exact ⟨c', rfl, hshows⟩

end

theorem prepareToDecode_eq (hdatasize : frame.datasize < maxLZWBits) :
    ∃ c, prepareToDecode frame = some c ∧ c.Represents frame.datasize none ∧ c.rowBuffer = [] ∧
      c.rows = [] ∧ c.rowsRemaining = frame.height ∧ c.datum = 0 ∧ c.bits = 0 := by
  have hpow := two_pow_le_of_lt hdatasize
  have hmax : maxBytes = 4097 := rfl
  rw [prepareToDecode, if_neg (by omega)]
  simp only
  rw [if_neg (by omega)]
  refine ⟨_, rfl, ?_, rfl, rfl, rfl, rfl, rfl⟩
  exact {
    stackp := rfl
    clearCode := rfl
    roots := fun a ha => by simp [ha]
    codesize := rfl
    codemask := rfl
    avail := rfl
    room := Nat.zero_le _
    entries := fun i w hw => by cases hw
    previous := rfl }

end GIFLZWContext

namespace GIFFrame

open GIFLZWContext

variable {frame : GIFFrame} {outputRow : List (List UInt8) → Bool}

/-- A stream that encodes the indexes of a frame is decoded to them. -/
theorem decode_of_encodes (memory : LZWMemory) (haccept : ∀ rows, outputRow rows = true)
    (hdatasize : frame.datasize < maxLZWBits)
    (hsize : 2 ≤ frame.datasize ∨ frame.width * frame.height ≤ 1)
    {symbols : List (Symbol UInt8)} {indexes : List UInt8} {blocks : List (List UInt8)}
    (h : Encodes frame.datasize symbols blocks.flatten indexes)
    (hlength : indexes.length = frame.width * frame.height) :
    ∃ rows, frame.decode memory outputRow blocks = (rows, true) ∧ rows.flatten = indexes ∧
      ∀ row ∈ rows, row.length = frame.width := by
  obtain ⟨c, hprepare, hrepresents, hrowBuffer, hrows, hremaining, hdatum, hbits⟩ :=
    prepareToDecode_eq hdatasize
  by_cases hopen : c.Open frame
  · have hrowed : c.Rowed frame [] := by
      have hne := hopen.rowBuffer
      rw [hrowBuffer, List.length_nil] at hne
      refine ⟨by rw [hrows, hrowBuffer]; rfl, by simp [hrows], ?_, hopen.rowsRemaining, ?_⟩
      · rw [hrowBuffer, List.length_nil]
        omega
      · rw [hrows, hremaining, List.length_nil, Nat.zero_add]
    have hawaits : c.Awaits frame indexes blocks.flatten.length (streamNumber blocks.flatten) none
        [] symbols := by
      refine ⟨hrepresents, hrowed, h.fits, ⟨indexes, h.decode, List.nil_append _⟩, ?_, ?_⟩
      · rw [hbits, Nat.zero_add]
        exact h.size
      · rw [hbits, hdatum, pow_zero, Nat.one_mul, Nat.zero_add]
        exact h.packed
    have hpos : c.bits < c.codesize := by
      have := lt_codeWidth hdatasize none
      rw [hbits, hrepresents.codesize]
      omega
    obtain ⟨c', hdone, hshows⟩ :=
      doBytes_reads memory haccept hdatasize hsize hlength hawaits hpos
    refine ⟨c'.rows, ?_, hshows.flatten, hshows.width⟩
    rw [decode_eq_result hprepare hopen, hdone]
    rfl
  · refine ⟨[], ?_, ?_, by simp⟩
    · rw [decode_of_no_pixels hprepare hopen, hrows]
    · have hzero : frame.width * frame.height = 0 := by
        by_contra hne
        refine hopen ⟨?_, ?_⟩
        · rw [hrowBuffer, List.length_nil]
          rintro h0
          exact hne (by rw [← h0, Nat.zero_mul])
        · rw [hremaining]
          rintro h0
          exact hne (by rw [h0, Nat.mul_zero])
      rw [hzero, List.length_eq_zero_iff] at hlength
      rw [hlength]
      rfl

/-- Decoding is exact, and depends only on the bytes of all blocks in a row. -/
theorem decode_exact_of_four_roots (frame : GIFFrame) (memory : LZWMemory)
    (outputRow : List (List UInt8) → Bool) (blocks : List (List UInt8)) :
    (∀ (symbols : List (Symbol UInt8)) (indexes : List UInt8),
      (∀ rows, outputRow rows = true) → frame.datasize < maxLZWBits →
      (2 ≤ frame.datasize ∨ frame.width * frame.height ≤ 1) →
      Encodes frame.datasize symbols blocks.flatten indexes →
      indexes.length = frame.width * frame.height →
      ∃ rows, frame.decode memory outputRow blocks = (rows, true) ∧ rows.flatten = indexes ∧
        ∀ row ∈ rows, row.length = frame.width) ∧
    ∀ blocks' : List (List UInt8), blocks.flatten = blocks'.flatten →
      frame.decode memory outputRow blocks = frame.decode memory outputRow blocks' :=
  ⟨fun _ _ haccept hdatasize hsize h hlength =>
      decode_of_encodes memory haccept hdatasize hsize h hlength,
    fun _ h => decode_congr_flatten h⟩

/-- A clear code, a root and the entry that it begins, in two blocks. -/
theorem encodes_clear_root_entry :
    Encodes 2 [.clear, .root 1, .entry 0] [[0x8C], [0x01]].flatten [1, 1, 1] where
  fits := by simp
  decode := by decide
  size := by decide
  packed := by decide

theorem decode_clear_root_entry :
    let frame : GIFFrame := ⟨2, 3, 1⟩
    let memory : LZWMemory := ⟨fun _ => 0, fun _ => 0⟩
    Encodes frame.datasize [.clear, .root 1, .entry 0] [[0x8C], [0x01]].flatten [1, 1, 1] ∧
      (∃ rows, frame.decode memory (fun _ => true) [[0x8C], [0x01]] = (rows, true) ∧
        rows.flatten = [1, 1, 1] ∧ ∀ row ∈ rows, row.length = frame.width) ∧
      frame.decode memory (fun _ => true) [[0x8C], [0x01]] =
        frame.decode memory (fun _ => true) [[0x8C, 0x01]] :=
  ⟨encodes_clear_root_entry,
    (decode_exact_of_four_roots ⟨2, 3, 1⟩ _ _ _).1 _ _ (fun _ => rfl) (by decide) (.inl le_rfl)
      encodes_clear_root_entry rfl,
    (decode_exact_of_four_roots _ _ _ _).2 _ rfl⟩

/-- With two roots, the first entry is the code 4 and has three bits, of which the decoder reads
two. -/
theorem not_decode_two_roots :
    let frame : GIFFrame := ⟨1, 3, 1⟩
    let memory : LZWMemory := ⟨fun _ => 0, fun _ => 0⟩
    Encodes frame.datasize [.root 1, .entry 0] [[0x11]].flatten [1, 1, 1] ∧
      ¬∃ rows, frame.decode memory (fun _ => true) [[0x11]] = (rows, true) ∧
        rows.flatten = [1, 1, 1] := by
  refine ⟨⟨by simp, by decide, by decide, by decide⟩, ?_⟩
  rintro ⟨rows, hdecode, hflatten⟩
  have hrun : GIFFrame.decode ⟨fun _ => 0, fun _ => 0⟩ (fun _ => true) ⟨1, 3, 1⟩ [[0x11]] =
      ([[1, 0, 1]], true) := by
    decide +kernel
  obtain rfl := (Prod.mk.inj (hrun.symm.trans hdecode)).1
  exact absurd hflatten (by decide)

end GIFFrame

end Odyssey.ImageDecoders
