import Mathlib.Algebra.GroupWithZero.Nat
import Mathlib.Logic.Function.Basic
import Mathlib.Data.List.Basic

/-!
# The LZW decoder of GIF frames

`GIFLZWContext` of `GIFImageReader.cpp`. The blocks of a frame are read byte by byte into a bit
buffer, from which codes are taken. The string of a code is put on a stack, last character first,
and then copied to the rows of the frame.
-/
namespace Odyssey.ImageDecoders

def maxLZWBits : Nat := 12

def maxBytes : Nat := 4097

/-- What the decoder reads of its `GIFFrameContext`. -/
structure GIFFrame where
  datasize : Nat
  width : Nat
  height : Nat

/-- What the vectors `prefix` and `stack` hold when they have been resized. -/
structure LZWMemory where
  prefixes : Nat → UInt16
  stack : Nat → UInt8

/-- The state of the decoder. Of the vectors `prefix` and `stack` it has what was written since they
were resized, and of the row buffer the part before `rowPosition`. The rows handed to `outputRow`
are `rows`; an `oldcode` of -1 is `none`. -/
structure GIFLZWContext where
  stackp : Nat
  codesize : Nat
  codemask : Nat
  clearCode : Nat
  avail : Nat
  oldcode : Option Nat
  firstchar : UInt8
  bits : Nat
  datum : Nat
  prefixes : Nat → Option Nat
  suffix : Nat → UInt8
  stack : Nat → Option UInt8
  rowBuffer : List UInt8
  rowsRemaining : Nat
  rows : List (List UInt8)

/-- How a part of `doLZW` ends: it goes on, or `doLZW` returns true or false. -/
inductive LZWOutcome where
  | running (c : GIFLZWContext)
  | done (c : GIFLZWContext)
  | failed (c : GIFLZWContext)

def LZWOutcome.andThen (outcome : LZWOutcome) (f : GIFLZWContext → LZWOutcome) : LZWOutcome :=
  match outcome with
  | running c => f c
  | outcome => outcome

@[simp] theorem LZWOutcome.running_andThen (c : GIFLZWContext) (f : GIFLZWContext → LZWOutcome) :
    (running c).andThen f = f c := rfl

@[simp] theorem LZWOutcome.done_andThen (c : GIFLZWContext) (f : GIFLZWContext → LZWOutcome) :
    (done c).andThen f = done c := rfl

@[simp] theorem LZWOutcome.failed_andThen (c : GIFLZWContext) (f : GIFLZWContext → LZWOutcome) :
    (failed c).andThen f = failed c := rfl

namespace GIFLZWContext

section

variable (memory : LZWMemory)

/-- `prefix[code]`. -/
def prefixOf (c : GIFLZWContext) (code : Nat) : Nat :=
  (c.prefixes code).getD (memory.prefixes code).toNat

/-- `stack[i]`. -/
def stackAt (c : GIFLZWContext) (i : Nat) : UInt8 := (c.stack i).getD (memory.stack i)

def push (character : UInt8) (c : GIFLZWContext) : GIFLZWContext :=
  { c with stack := Function.update c.stack c.stackp (some character), stackp := c.stackp + 1 }

/-- The characters of a code but for the first, last character first: the code of the first one, or
`none` if `doLZW` returns false. Every turn pushes a character, so that `maxBytes` turns are enough.
-/
def expand : (turns : Nat) → (code : Nat) → GIFLZWContext → Option (Nat × GIFLZWContext)
  | 0, _, _ => none
  | turns + 1, code, c =>
    if code < c.clearCode then some (code, c)
    else if maxBytes ≤ code ∨ code = c.prefixOf memory code then none
    else
      let c' := c.push (c.suffix code)
      if c'.stackp = maxBytes then none else expand turns (c.prefixOf memory code) c'

/-- A new codeword, of the string of `oldcode` and the character `firstchar`. -/
def define (oldcode : Nat) (c : GIFLZWContext) : GIFLZWContext :=
  if c.avail < 4096 then
    let c := { c with
      prefixes := Function.update c.prefixes c.avail (some oldcode)
      suffix := Function.update c.suffix c.avail c.firstchar
      avail := c.avail + 1 }
    if c.avail &&& c.codemask = 0 ∧ c.avail < 4096 then
      { c with codesize := c.codesize + 1, codemask := c.codemask + c.avail }
    else c
  else c

/-- The first character of a code is pushed, and a new codeword is defined with it. -/
def learn (oldcode code first : Nat) (c : GIFLZWContext) : GIFLZWContext :=
  let firstchar := c.suffix first
  let c := { c.push firstchar with firstchar }
  { c.define oldcode with oldcode := some code }

variable (outputRow : List (List UInt8) → Bool) (frame : GIFFrame)

/-- A character is put into the row buffer, and a full row is handed over by `OUTPUT_ROW`. Whether
`outputRow` succeeds depends on the rows that it got. -/
def emit (character : UInt8) (c : GIFLZWContext) : LZWOutcome :=
  let rowBuffer := c.rowBuffer ++ [character]
  if rowBuffer.length = frame.width then
    let rows := c.rows ++ [rowBuffer]
    if !outputRow rows then .failed { c with rowBuffer, rows }
    else
      let c := { c with rows, rowBuffer := [], rowsRemaining := c.rowsRemaining - 1 }
      if c.rowsRemaining = 0 then .done c else .running c
  else .running { c with rowBuffer }

/-- The stack is copied to the row buffer until it is empty. -/
def copyOut : (stackp : Nat) → GIFLZWContext → LZWOutcome
  | 0, c => .running c
  | stackp + 1, c =>
    (emit outputRow frame (c.stackAt memory stackp) { c with stackp }).andThen (copyOut stackp)

def copyStack (c : GIFLZWContext) : LZWOutcome := c.copyOut memory outputRow frame c.stackp

/-- The body of the loop over the codes. -/
def handleCode (code : Nat) (c : GIFLZWContext) : LZWOutcome :=
  if code = c.clearCode then
    let codesize := frame.datasize + 1
    .running { c with
      codesize
      codemask := 2 ^ codesize - 1
      avail := c.clearCode + 2
      oldcode := none }
  else if code = c.clearCode + 1 then
    if c.rowsRemaining = 0 then .done c else .failed c
  else
    match c.oldcode with
    | none =>
      (emit outputRow frame (c.suffix code) c).andThen fun c =>
        .running { c with firstchar := code.toUInt8, oldcode := some code }
    | some oldcode =>
      let (code', c') := if c.avail ≤ code then (oldcode, c.push c.firstchar) else (code, c)
      if c.avail ≤ code ∧ c'.stackp = maxBytes then .failed c'
      else
        match c'.expand memory maxBytes code' with
        | none => .failed c'
        | some (first, c) => (c.learn oldcode code first).copyStack memory outputRow frame

/-- The next code is taken from the bit buffer. -/
def takeCode (c : GIFLZWContext) : Nat × GIFLZWContext :=
  (c.datum &&& c.codemask, { c with datum := c.datum >>> c.codesize, bits := c.bits - c.codesize })

/-- The loop over the codes in the bit buffer. Every turn takes a bit at least. -/
def codeLoop : (turns : Nat) → GIFLZWContext → LZWOutcome
  | 0, c => .running c
  | turns + 1, c =>
    if c.codesize ≤ c.bits then
      let (code, c) := c.takeCode
      (c.handleCode memory outputRow frame code).andThen (codeLoop turns)
    else .running c

/-- The next byte is put into the bit buffer. -/
def feed (byte : UInt8) (c : GIFLZWContext) : GIFLZWContext :=
  { c with datum := c.datum + byte.toNat <<< c.bits, bits := c.bits + 8 }

def doBytes : List UInt8 → GIFLZWContext → LZWOutcome
  | [], c => .running c
  | byte :: block, c =>
    ((c.feed byte).codeLoop memory outputRow frame (c.bits + 8)).andThen (doBytes block)

def doLZW (block : List UInt8) (c : GIFLZWContext) : LZWOutcome :=
  if c.rowBuffer.length = frame.width then .done c
  else c.doBytes memory outputRow frame block

/-- The loop of `GIFFrameContext::decode` over the blocks. -/
def decodeBlocks : List (List UInt8) → GIFLZWContext → GIFLZWContext × Bool
  | [], c => (c, true)
  | block :: blocks, c =>
    if c.rowsRemaining = 0 then (c, true)
    else
      match c.doLZW memory outputRow frame block with
      | .running c => decodeBlocks blocks c
      | .done c => decodeBlocks blocks c
      | .failed c => (c, false)

end

/-- `expand` touches the stack only. -/
theorem expand_eq_some {memory : LZWMemory} {c c' : GIFLZWContext} {turns code first : Nat}
    (h : c.expand memory turns code = some (first, c')) :
    c' = { c with stack := c'.stack, stackp := c'.stackp } := by
  induction turns generalizing code c with
  | zero => cases h
  | succ turns ih =>
    rw [expand] at h
    split_ifs at h
    · cases h
      rfl
    · simp only at h
      split_ifs at h
      have hc' := ih h
      exact hc'

/-- Defining a codeword touches the dictionary only. -/
theorem define_eq_with (c : GIFLZWContext) (oldcode : Nat) :
    c.define oldcode =
      { c with
        prefixes := (c.define oldcode).prefixes
        suffix := (c.define oldcode).suffix
        avail := (c.define oldcode).avail
        codesize := (c.define oldcode).codesize
        codemask := (c.define oldcode).codemask } := by
  rw [define]
  simp only
  split_ifs <;> rfl

@[simp] theorem stackp_define (c : GIFLZWContext) (oldcode : Nat) :
    (c.define oldcode).stackp = c.stackp := by
  rw [define_eq_with]

@[simp] theorem stack_define (c : GIFLZWContext) (oldcode : Nat) :
    (c.define oldcode).stack = c.stack := by
  rw [define_eq_with]

def prepareToDecode (frame : GIFFrame) : Option GIFLZWContext :=
  if maxLZWBits ≤ frame.datasize then none
  else
    let clearCode := 2 ^ frame.datasize
    if maxBytes ≤ clearCode then none
    else
      let codesize := frame.datasize + 1
      some {
        stackp := 0
        codesize
        codemask := 2 ^ codesize - 1
        clearCode
        avail := clearCode + 2
        oldcode := none
        firstchar := 0
        bits := 0
        datum := 0
        prefixes := fun _ => none
        suffix := fun i => if i < clearCode then i.toUInt8 else 0
        stack := fun _ => none
        rowBuffer := []
        rowsRemaining := frame.height
        rows := [] }

end GIFLZWContext

/-- The rows of a frame with these blocks, and whether decoding succeeds. -/
def GIFFrame.decode (memory : LZWMemory) (outputRow : List (List UInt8) → Bool) (frame : GIFFrame)
    (blocks : List (List UInt8)) : List (List UInt8) × Bool :=
  match GIFLZWContext.prepareToDecode frame with
  | none => ([], false)
  | some c =>
    let (c, success) := c.decodeBlocks memory outputRow frame blocks
    (c.rows, success)

end Odyssey.ImageDecoders
