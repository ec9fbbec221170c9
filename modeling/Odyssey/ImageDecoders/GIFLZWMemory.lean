import Odyssey.ImageDecoders.GIFLZWBlocks

/-!
# Frames and the memory that the decoder found

`prepareToDecode` initialises the vector `suffix`, but not `prefix` and `stack`. The rows of a frame
do not depend on what was there if no code is expanded through an entry of `prefix` that has not
been written. A code after a clear code, or one behind the next free one, can be such an entry; a
stream without such codes is decoded with written entries only.
-/
namespace Odyssey.ImageDecoders

namespace GIFLZWContext

/-! ## Entries that are read -/

/-- Expanding a code reads only entries of `prefix` that have been written. -/
def readsWritten (c : GIFLZWContext) : (turns : Nat) → (code : Nat) → Bool
  | 0, _ => true
  | turns + 1, code =>
    if code < c.clearCode ∨ maxBytes ≤ code then true
    else
      match c.prefixes code with
      | none => false
      | some next => decide (next = code) || readsWritten c turns next

/-- The body of the loop over the codes reads only entries of `prefix` that have been written. -/
def handlesWritten (code : Nat) (c : GIFLZWContext) : Bool :=
  if code = c.clearCode ∨ code = c.clearCode + 1 then true
  else
    match c.oldcode with
    | none => true
    | some oldcode =>
      if c.avail ≤ code then c.readsWritten (maxBytes - 1) oldcode else c.readsWritten maxBytes code

variable {memory memory' : LZWMemory} {outputRow : List (List UInt8) → Bool} {frame : GIFFrame}

theorem readsWritten_push (c : GIFLZWContext) (character : UInt8) (turns code : Nat) :
    (c.push character).readsWritten turns code = c.readsWritten turns code := by
  induction turns generalizing code with
  | zero => rfl
  | succ turns ih =>
    rw [readsWritten, readsWritten]
    change (if code < c.clearCode ∨ maxBytes ≤ code then true
      else match c.prefixes code with
        | none => false
        | some next => decide (next = code) || (c.push character).readsWritten turns next) = _
    simp only [ih]

variable {c c' : GIFLZWContext} {code : Nat}

theorem prefixOf_of_written {next : Nat} (h : c.prefixes code = some next) :
    c.prefixOf memory code = next := by
  rw [prefixOf, h, Option.getD_some]

/-- Expanding through written entries does not depend on the memory. -/
theorem expand_congr (turns code : Nat) (c : GIFLZWContext)
    (h : c.readsWritten (maxBytes - c.stackp) code = true) (hstackp : c.stackp < maxBytes) :
    c.expand memory turns code = c.expand memory' turns code := by
  induction turns generalizing code c with
  | zero => rfl
  | succ turns ih =>
    rw [expand, expand]
    by_cases hroot : code < c.clearCode
    · rw [if_pos hroot, if_pos hroot]
    rw [if_neg hroot, if_neg hroot]
    by_cases hlarge : maxBytes ≤ code
    · rw [if_pos (.inl hlarge), if_pos (.inl hlarge)]
    obtain ⟨n, hn⟩ : ∃ n, maxBytes - c.stackp = n + 1 := ⟨maxBytes - c.stackp - 1, by omega⟩
    rw [hn, readsWritten, if_neg (by omega)] at h
    cases hnext : c.prefixes code with
    | none =>
      rw [hnext] at h
      cases h
    | some next =>
      simp only [hnext, Bool.or_eq_true, decide_eq_true_eq] at h
      rw [prefixOf_of_written hnext, prefixOf_of_written hnext]
      by_cases hself : code = next
      · rw [if_pos (.inr hself), if_pos (.inr hself)]
      have hok : ¬(maxBytes ≤ code ∨ code = next) := by omega
      rw [if_neg hok, if_neg hok]
      have hpush : (c.push (c.suffix code)).stackp = c.stackp + 1 := rfl
      by_cases hfull : (c.push (c.suffix code)).stackp = maxBytes
      · simp only [hfull, if_true]
      · simp only [hfull, if_false]
        refine ih next _ ?_ (by omega)
        rw [readsWritten_push, hpush, show maxBytes - (c.stackp + 1) = n by omega]
        rcases h with h | h
        · exact absurd h.symm hself
        · exact h

/-! ## The stack -/

/-- The stack has been written up to its pointer. -/
def StackWritten (c : GIFLZWContext) : Prop := ∀ i < c.stackp, (c.stack i).isSome = true

theorem StackWritten.push (h : c.StackWritten) (character : UInt8) :
    (c.push character).StackWritten := by
  intro i hi
  change (Function.update c.stack c.stackp (some character) i).isSome = true
  by_cases heq : i = c.stackp
  · rw [heq, Function.update_self]
    rfl
  · rw [Function.update_of_ne heq]
    have : i < c.stackp + 1 := hi
    exact h i (by omega)

theorem StackWritten.expand {turns first : Nat} (h : c.StackWritten)
    (hexpand : c.expand memory turns code = some (first, c')) : c'.StackWritten := by
  induction turns generalizing code c with
  | zero => cases hexpand
  | succ turns ih =>
    rw [GIFLZWContext.expand] at hexpand
    split_ifs at hexpand with hroot hbad
    · cases hexpand
      exact h
    · simp only at hexpand
      split_ifs at hexpand
      exact ih (h.push _) hexpand

theorem StackWritten.learn (h : c.StackWritten) (oldcode code first : Nat) :
    (c.learn oldcode code first).StackWritten := by
  intro i hi
  simp only [GIFLZWContext.learn, stackp_define, stack_define] at hi ⊢
  exact h.push _ i hi

/-- `emit` touches the rows only. -/
theorem emit_running {character : UInt8} (h : emit outputRow frame character c = .running c') :
    c' = { c with
      rowBuffer := c'.rowBuffer, rows := c'.rows, rowsRemaining := c'.rowsRemaining } := by
  rw [emit] at h
  simp only at h
  split_ifs at h <;> cases h <;> rfl

theorem copyOut_congr (c : GIFLZWContext) (h : c.StackWritten) :
    c.copyOut memory outputRow frame c.stackp = c.copyOut memory' outputRow frame c.stackp := by
  generalize hstackp : c.stackp = stackp
  induction stackp generalizing c with
  | zero => rfl
  | succ stackp ih =>
    have hread : c.stackAt memory stackp = c.stackAt memory' stackp := by
      obtain ⟨character, hcharacter⟩ := Option.isSome_iff_exists.mp (h stackp (by omega))
      rw [stackAt, stackAt, hcharacter, Option.getD_some, Option.getD_some]
    rw [copyOut, copyOut, hread]
    cases hemit : emit outputRow frame (c.stackAt memory' stackp) { c with stackp } with
    | running c' =>
      have hc' := emit_running hemit
      refine ih c' ?_ (by rw [hc'])
      rw [hc']
      intro i hi
      have : i < stackp := hi
      exact h i (by omega)
    | done c' => rfl
    | failed c' => rfl

theorem copyOut_running (h : c.copyOut memory outputRow frame c.stackp = .running c') :
    c' = { c with
      stackp := 0, rowBuffer := c'.rowBuffer, rows := c'.rows
      rowsRemaining := c'.rowsRemaining } := by
  generalize hn : c.stackp = stackp at h
  induction stackp generalizing c with
  | zero =>
    cases h
    rw [← hn]
  | succ stackp ih =>
    rw [copyOut] at h
    cases hemit : emit outputRow frame (c.stackAt memory stackp) { c with stackp } with
    | running d =>
      rw [hemit] at h
      have hd := emit_running hemit
      have hc' := ih (by rw [hd]) h
      rw [hd] at hc'
      exact hc'
    | done d =>
      rw [hemit] at h
      cases h
    | failed d =>
      rw [hemit] at h
      cases h

/-- A code that reads written entries only does not depend on the memory, and leaves an empty stack.
-/
theorem handleCode_congr (memory' : LZWMemory) (hstackp : c.stackp = 0)
    (h : c.handlesWritten code = true) :
    c.handleCode memory outputRow frame code = c.handleCode memory' outputRow frame code := by
  rw [handleCode, handleCode]
  by_cases hclear : code = c.clearCode
  · rw [if_pos hclear, if_pos hclear]
  rw [if_neg hclear, if_neg hclear]
  by_cases hend : code = c.clearCode + 1
  · rw [if_pos hend, if_pos hend]
  rw [if_neg hend, if_neg hend]
  rw [handlesWritten, if_neg (by omega)] at h
  cases holdcode : c.oldcode with
  | none => rfl
  | some oldcode =>
    simp only [holdcode] at h ⊢
    have hwritten : c.StackWritten := by
      intro i hi
      omega
    obtain ⟨code', c', hstart, hwritten', hreads, hlt⟩ : ∃ code' c',
        (if c.avail ≤ code then (oldcode, c.push c.firstchar) else (code, c)) = (code', c') ∧
        c'.StackWritten ∧ c'.readsWritten (maxBytes - c'.stackp) code' = true ∧
        c'.stackp < maxBytes := by
      split_ifs at h ⊢ with hnew
      · refine ⟨_, _, rfl, hwritten.push _, ?_, ?_⟩
        · rw [readsWritten_push]
          change c.readsWritten (maxBytes - (c.stackp + 1)) oldcode = true
          rw [hstackp]
          exact h
        · change c.stackp + 1 < maxBytes
          rw [hstackp]
          decide
      · refine ⟨_, _, rfl, hwritten, ?_, ?_⟩
        · rw [hstackp]
          exact h
        · rw [hstackp]
          decide
    simp only [hstart]
    rw [expand_congr maxBytes code' c' hreads hlt]
    split_ifs
    · rfl
    cases hexpand : c'.expand memory' maxBytes code' with
    | none => rfl
    | some found =>
      obtain ⟨first, d⟩ := found
      exact copyOut_congr _ ((hwritten'.expand hexpand).learn oldcode code first)

theorem avail_define (c : GIFLZWContext) (oldcode : Nat) :
    (c.define oldcode).avail = if c.avail < 4096 then c.avail + 1 else c.avail := by
  rw [define]
  simp only
  split_ifs <;> rfl

theorem prefixes_define (c : GIFLZWContext) (oldcode : Nat) :
    (c.define oldcode).prefixes =
      if c.avail < 4096 then Function.update c.prefixes c.avail (some oldcode)
      else c.prefixes := by
  rw [define]
  simp only
  split_ifs <;> rfl

/-- The dictionary after a code that is not the last: it is cleared, or the code is remembered, and
an entry is made of the code before it. -/
theorem handleCode_running (hstackp : c.stackp = 0)
    (h : c.handleCode memory outputRow frame code = .running c') :
    c'.stackp = 0 ∧ c'.clearCode = c.clearCode ∧
      (c'.avail = c.clearCode + 2 ∧ c'.oldcode = none ∨
        code ≠ c.clearCode ∧ code ≠ c.clearCode + 1 ∧ c'.oldcode = some code ∧
          (c.oldcode = none ∧ c'.avail = c.avail ∧ c'.prefixes = c.prefixes ∨
            ∃ oldcode, c.oldcode = some oldcode ∧ c'.avail = (c.define oldcode).avail ∧
              c'.prefixes = (c.define oldcode).prefixes)) := by
  rw [handleCode] at h
  by_cases hclear : code = c.clearCode
  · rw [if_pos hclear] at h
    cases h
    exact ⟨hstackp, rfl, .inl ⟨rfl, rfl⟩⟩
  rw [if_neg hclear] at h
  by_cases hend : code = c.clearCode + 1
  · rw [if_pos hend] at h
    split_ifs at h
  rw [if_neg hend] at h
  cases holdcode : c.oldcode with
  | none =>
    simp only [holdcode] at h
    cases hemit : emit outputRow frame (c.suffix code) c with
    | running d =>
      rw [hemit] at h
      cases h
      rw [emit_running hemit]
      exact ⟨hstackp, rfl, .inr ⟨hclear, hend, rfl, .inl ⟨rfl, rfl, rfl⟩⟩⟩
    | done d => simp [hemit] at h
    | failed d => simp [hemit] at h
  | some oldcode =>
    simp only [holdcode] at h
    obtain ⟨code', d, hstart, hd⟩ : ∃ code' d,
        (if c.avail ≤ code then (oldcode, c.push c.firstchar) else (code, c)) = (code', d) ∧
        d = { c with stack := d.stack, stackp := d.stackp } := by
      split_ifs
      · exact ⟨_, _, rfl, rfl⟩
      · exact ⟨_, _, rfl, rfl⟩
    simp only [hstart] at h
    split_ifs at h
    cases hexpand : d.expand memory maxBytes code' with
    | none => simp [hexpand] at h
    | some found =>
      obtain ⟨first, e⟩ := found
      simp only [hexpand] at h
      have he := expand_eq_some hexpand
      rw [hd] at he
      rw [copyOut_running h, he]
      refine ⟨rfl, ?_, .inr ⟨hclear, hend, rfl, .inr ⟨oldcode, rfl, ?_, ?_⟩⟩⟩
      · simp only [learn]
        rw [define_eq_with]
        rfl
      · simp only [learn, avail_define]
        rfl
      · simp only [learn, prefixes_define]
        rfl

/-! ## Codes of the dictionary -/

/-- The code is a root or an entry of the dictionary. -/
def Known (c : GIFLZWContext) (code : Nat) : Prop :=
  code < c.clearCode ∨ c.clearCode + 2 ≤ code ∧ code < c.avail

/-- The clear code, the end code, a root behind a clear code, or a code that is in the dictionary or
gets into it now. -/
def handlesKnown (code : Nat) (c : GIFLZWContext) : Bool :=
  decide (code = c.clearCode ∨ code = c.clearCode + 1) ||
    match c.oldcode with
    | none => decide (code < c.clearCode)
    | some _ => decide (code < c.avail ∨ code = c.avail ∧ c.avail < 4096)

/-- The entries of the dictionary lead to roots, as does the code before. -/
structure Linked (c : GIFLZWContext) : Prop where
  stackp : c.stackp = 0
  avail : c.clearCode + 2 ≤ c.avail
  oldcode : ∀ code ∈ c.oldcode, c.Known code
  entries : ∀ code, c.clearCode + 2 ≤ code → code < c.avail →
    ∃ next, c.prefixes code = some next ∧ c.Known next

theorem Linked.readsWritten (h : c.Linked) (turns : Nat) (known : c.Known code) :
    c.readsWritten turns code = true := by
  induction turns generalizing code with
  | zero => rfl
  | succ turns ih =>
    rw [GIFLZWContext.readsWritten]
    rcases known with root | ⟨low, high⟩
    · rw [if_pos (.inl root)]
    · obtain ⟨next, hlink, known⟩ := h.entries code low high
      simp [hlink, ih known]

theorem Linked.handlesWritten (h : c.Linked) (known : c.handlesKnown code = true) :
    c.handlesWritten code = true := by
  rw [GIFLZWContext.handlesWritten]
  by_cases hspecial : code = c.clearCode ∨ code = c.clearCode + 1
  · rw [if_pos hspecial]
  rw [if_neg hspecial]
  cases holdcode : c.oldcode with
  | none => rfl
  | some oldcode =>
    simp only [handlesKnown, holdcode, decide_eq_true_eq, Bool.or_eq_true, hspecial, false_or]
      at known
    simp only
    split_ifs with hnew
    · exact h.readsWritten _ (h.oldcode oldcode holdcode)
    · exact h.readsWritten _ (by rw [Known]; omega)

/-- A code of the dictionary keeps the entries linked. -/
theorem Linked.handleCode (h : c.Linked) (known : c.handlesKnown code = true)
    (hrun : c.handleCode memory outputRow frame code = .running c') : c'.Linked := by
  obtain ⟨hstackp, hclear, ⟨havail, holdcode⟩ | ⟨hne, hne', holdcode', hentry⟩⟩ :=
    handleCode_running h.stackp hrun
  · refine ⟨hstackp, by omega, by simp [holdcode], fun code low high => ?_⟩
    omega
  have hle := h.avail
  rw [handlesKnown, Bool.or_eq_true, decide_eq_true_eq] at known
  have known := known.resolve_left (not_or.mpr ⟨hne, hne'⟩)
  have hlift : ∀ {code}, c.avail ≤ c'.avail → c.Known code → c'.Known code := by
    intro code hle known
    rw [Known] at known ⊢
    omega
  rcases hentry with ⟨holdcode, havail, hprefixes⟩ | ⟨oldcode, holdcode, havail, hprefixes⟩
  · simp only [holdcode, decide_eq_true_eq] at known
    refine ⟨hstackp, by omega, ?_, fun code low high => ?_⟩
    · rw [holdcode']
      rintro _ ⟨⟩
      exact .inl (by omega)
    · obtain ⟨next, hlink, known⟩ := h.entries code (by omega) (by omega)
      exact ⟨next, by rw [hprefixes, hlink], hlift (by omega) known⟩
  · simp only [holdcode, decide_eq_true_eq] at known
    rw [avail_define] at havail
    rw [prefixes_define] at hprefixes
    have hgrows : c.avail ≤ c'.avail := by
      rw [havail]
      split_ifs <;> omega
    refine ⟨hstackp, by omega, ?_, fun code low high => ?_⟩
    · rw [holdcode']
      rintro _ ⟨⟩
      rw [Known, havail]
      split_ifs <;> omega
    · by_cases hnew : code < c.avail
      · obtain ⟨next, hlink, known⟩ := h.entries code (by omega) hnew
        refine ⟨next, ?_, hlift hgrows known⟩
        rw [hprefixes]
        split_ifs
        · rw [Function.update_of_ne (by omega), hlink]
        · exact hlink
      · have hroom : c.avail < 4096 := by
          by_contra hfull
          rw [if_neg hfull] at havail
          omega
        rw [if_pos hroom] at havail hprefixes
        obtain rfl : code = c.avail := by omega
        exact ⟨oldcode, by rw [hprefixes, Function.update_self],
          hlift hgrows (h.oldcode oldcode holdcode)⟩

/-! ## The run -/

section

variable (check : Nat → GIFLZWContext → Bool) (memory : LZWMemory)
  (outputRow : List (List UInt8) → Bool) (frame : GIFFrame)

/-- Every code of the loop over the bit buffer meets the check, on the state before it. -/
def codeLoopMeets : (turns : Nat) → GIFLZWContext → Bool
  | 0, _ => true
  | turns + 1, c =>
    if c.codesize ≤ c.bits then
      let (code, c) := c.takeCode
      check code c &&
        match c.handleCode memory outputRow frame code with
        | .running c => codeLoopMeets turns c
        | _ => true
    else true

def doBytesMeets : List UInt8 → GIFLZWContext → Bool
  | [], _ => true
  | byte :: block, c =>
    codeLoopMeets check memory outputRow frame (c.bits + 8) (c.feed byte) &&
      match (c.feed byte).codeLoop memory outputRow frame (c.bits + 8) with
      | .running c => doBytesMeets block c
      | _ => true

end

section

variable {I : GIFLZWContext → Prop} {check check' : Nat → GIFLZWContext → Bool}
  (reads : ∀ {c} (datum bits : Nat), I c → I { c with datum, bits })
  (handles : ∀ {c code}, I c → check code c = true → check' code c = true ∧
    c.handleCode memory outputRow frame code = c.handleCode memory' outputRow frame code ∧
    ∀ c', c.handleCode memory outputRow frame code = .running c' → I c')

include reads handles

/-- The rule for the loops. Under the invariant a code that meets one check meets the other and is
handled alike with other memory. -/
theorem codeLoop_of_meets (turns : Nat) {c : GIFLZWContext} (hI : I c)
    (h : codeLoopMeets check memory outputRow frame turns c = true) :
    codeLoopMeets check' memory outputRow frame turns c = true ∧
      c.codeLoop memory outputRow frame turns = c.codeLoop memory' outputRow frame turns ∧
      ∀ c', c.codeLoop memory outputRow frame turns = .running c' → I c' := by
  induction turns generalizing c with
  | zero => exact ⟨rfl, rfl, by rintro _ ⟨⟩; exact hI⟩
  | succ turns ih =>
    rw [codeLoopMeets] at h ⊢
    rw [codeLoop, codeLoop]
    split_ifs at h ⊢
    · obtain ⟨code, d, htake⟩ : ∃ code d, c.takeCode = (code, d) := ⟨_, _, rfl⟩
      have hd : I d := (Prod.mk.inj htake).2 ▸ reads _ _ hI
      simp only [htake, Bool.and_eq_true] at h ⊢
      obtain ⟨hcheck, hsame, hkeeps⟩ := handles hd h.1
      rw [← hsame]
      cases hhandle : d.handleCode memory outputRow frame code with
      | running e =>
        simp only [hhandle] at h
        obtain ⟨hrest, hcongr⟩ := ih (hkeeps e hhandle) h.2
        exact ⟨⟨hcheck, hrest⟩, hcongr⟩
      | done e => simp [hcheck]
      | failed e => simp [hcheck]
    · exact ⟨rfl, rfl, by rintro _ ⟨⟩; exact hI⟩

theorem doBytes_of_meets (block : List UInt8) {c : GIFLZWContext} (hI : I c)
    (h : doBytesMeets check memory outputRow frame block c = true) :
    doBytesMeets check' memory outputRow frame block c = true ∧
      c.doBytes memory outputRow frame block = c.doBytes memory' outputRow frame block := by
  induction block generalizing c with
  | nil => exact ⟨rfl, rfl⟩
  | cons byte block ih =>
    rw [doBytesMeets, Bool.and_eq_true] at h ⊢
    have hfeed : I (c.feed byte) := reads _ _ hI
    obtain ⟨hloop, hsame, hkeeps⟩ := codeLoop_of_meets reads handles (c.bits + 8) hfeed h.1
    rw [doBytes, doBytes, ← hsame]
    cases hrun : (c.feed byte).codeLoop memory outputRow frame (c.bits + 8) with
    | running d =>
      simp only [hrun] at h
      obtain ⟨hrest, hcongr⟩ := ih (hkeeps d hrun) h.2
      exact ⟨⟨hloop, hrest⟩, hcongr⟩
    | done d => simp [hloop]
    | failed d => simp [hloop]

end

end GIFLZWContext

namespace GIFFrame

open GIFLZWContext

/-- Every code of the blocks meets the check, on the state before it. -/
def everyCode (check : Nat → GIFLZWContext → Bool) (memory : LZWMemory)
    (outputRow : List (List UInt8) → Bool) (frame : GIFFrame) (blocks : List (List UInt8)) : Bool :=
  match prepareToDecode frame with
  | none => true
  | some c => doBytesMeets check memory outputRow frame blocks.flatten c

/-- Every code of the blocks is read with entries of `prefix` that have been written. -/
def decodesWritten (memory : LZWMemory) (outputRow : List (List UInt8) → Bool) (frame : GIFFrame)
    (blocks : List (List UInt8)) : Bool :=
  everyCode handlesWritten memory outputRow frame blocks

theorem linked_prepareToDecode {frame : GIFFrame} {c : GIFLZWContext}
    (h : prepareToDecode frame = some c) : c.Linked := by
  rw [prepareToDecode] at h
  simp only at h
  split_ifs at h
  cases h
  exact ⟨rfl, Nat.le_refl _, by simp, fun code low high => absurd high (Nat.not_lt_of_le low)⟩

/-- Written entries are enough for a stream of known codes: the first behind a clear code is a root,
and any other is in the dictionary or the next to get into it. -/
theorem decodesWritten_of_known {memory : LZWMemory} {outputRow : List (List UInt8) → Bool}
    {frame : GIFFrame} {blocks : List (List UInt8)}
    (h : everyCode handlesKnown memory outputRow frame blocks = true) :
    frame.decodesWritten memory outputRow blocks = true := by
  rw [everyCode] at h
  rw [decodesWritten, everyCode]
  cases hprepare : prepareToDecode frame with
  | none => rfl
  | some c =>
    rw [hprepare] at h
    exact (doBytes_of_meets (fun _ _ hlinked => ⟨hlinked.1, hlinked.2, hlinked.3, hlinked.4⟩)
      (fun hlinked known =>
        ⟨hlinked.handlesWritten known, rfl, fun _ => hlinked.handleCode known⟩) _
      (linked_prepareToDecode hprepare) h).1

theorem decode_eq_of_decodesWritten (memory memory' : LZWMemory)
    (outputRow : List (List UInt8) → Bool) (frame : GIFFrame) (blocks : List (List UInt8))
    (h : frame.decodesWritten memory outputRow blocks = true) :
    frame.decode memory outputRow blocks = frame.decode memory' outputRow blocks := by
  cases hprepare : prepareToDecode frame with
  | none => rw [decode, decode, hprepare]
  | some c =>
    by_cases hopen : c.Open frame
    · rw [decodesWritten, everyCode, hprepare] at h
      rw [decode_eq_result hprepare hopen, decode_eq_result hprepare hopen,
        (doBytes_of_meets (I := (·.stackp = 0)) (fun _ _ hstackp => hstackp)
          (fun hstackp written => ⟨written, handleCode_congr memory' hstackp written,
            fun _ hrun => (handleCode_running hstackp hrun).1⟩) _
          (linked_prepareToDecode hprepare).stackp h).2]
    · rw [decode_of_no_pixels hprepare hopen, decode_of_no_pixels hprepare hopen]

/-- Memory that holds one number everywhere. -/
def constantMemory (n : UInt16) : LZWMemory where
  prefixes := fun _ => n
  stack := fun _ => 0

/-- The codes 4, 1, 6 and 5 of a frame of three pixels. -/
theorem decode_eq_clear_one_six :
    let frame : GIFFrame := ⟨2, 3, 1⟩
    frame.decodesWritten (constantMemory 0) (fun _ => true) [[0x8C], [0x0B]] = true ∧
      frame.decode (constantMemory 0) (fun _ => true) [[0x8C], [0x0B]] = ([[1, 1, 1]], true) ∧
      frame.decode (constantMemory 0) (fun _ => true) [[0x8C], [0x0B]] =
        frame.decode (constantMemory 1) (fun _ => true) [[0x8C], [0x0B]] :=
  have written := decodesWritten_of_known (by decide +kernel)
  ⟨written, by decide +kernel, decode_eq_of_decodesWritten _ _ _ _ _ written⟩

/-- The first code is 6, which is the next free one, so that the second code 6 follows its entry of
`prefix`, which nobody has written. -/
theorem decode_ne_six_six :
    let frame : GIFFrame := ⟨2, 3, 1⟩
    frame.decode (constantMemory 0) (fun _ => true) [[0x36]] ≠
      frame.decode (constantMemory 1) (fun _ => true) [[0x36]] := by
  decide +kernel

end GIFFrame

end Odyssey.ImageDecoders
