import Mathlib.Data.Finset.Union
import Odyssey.ContentExtensions.DFABytecodeInterpreter
import Odyssey.ContentExtensions.DFABytecodeLayout

/-!
# The bytecode does what the automaton does

The interpreter on compiled bytecode visits the nodes of the automaton, with one exception: a
fallback jump is not taken at the end of the URL, so that a transition on the end marker to the
fallback target, which the compiler leaves out, is lost.
-/
namespace Odyssey.ContentExtensions

open Lib.Bytes DFABytecodeCompiler

namespace DFABytecodeInterpreter

/-! ## Instructions in linked bytecode -/

/-- The instructions stand in the bytecode from the location on, with their distances. -/
inductive CodeAt (bytecode : List Nat) (offsets : Nat → Option Nat) : Nat → List Code → Prop
  | nil (location : Nat) : CodeAt bytecode offsets location []
  | cons {location : Nat} {code : Code} {rest : List Code} (size : DFABytecodeJumpSize) :
      At bytecode location (Piece.fill (content offsets) (code.pieces size location)) →
      (∀ r ∈ Piece.slots (code.pieces size location), Linked offsets r) →
      CodeAt bytecode offsets (location + code.length size) rest →
      CodeAt bytecode offsets location (code :: rest)

theorem codeAt_of_lays {offsets : Nat → Option Nat} {location : Nat} {codes : List Code}
    {ps : List (Piece LinkRecord)} (h : Lays location codes ps)
    (hlinked : ∀ r ∈ Piece.slots ps, Linked offsets r) (pre post : List Nat)
    (hpre : pre.length = location) :
    CodeAt (pre ++ Piece.fill (content offsets) ps ++ post) offsets location codes := by
  induction h generalizing pre with
  | nil location => exact .nil location
  | @cons location code rest ps size _ ih =>
    rw [Piece.slots_append] at hlinked
    have hat := at_of_append pre (Piece.fill (content offsets) (code.pieces size location))
      (Piece.fill (content offsets) ps ++ post)
    have hlength := length_fill_pieces (length_content offsets) size location code
    have hrest := ih (fun r hr => hlinked r (List.mem_append_right _ hr))
      (pre ++ Piece.fill (content offsets) (code.pieces size location))
      (by rw [List.length_append, hpre, hlength])
    rw [Piece.fill_append]
    refine .cons size ?_ (fun r hr => hlinked r (List.mem_append_left _ hr)) ?_
    · rw [hpre] at hat
      simpa only [List.append_assoc] using hat
    · simpa only [List.append_assoc] using hrest

section Step

variable {bytecode url : List Nat} {offsets : Nat → Option Nat} {flags : Nat} {m : Machine}

theorem jumpBy_distance {r : LinkRecord} {offset : Nat}
    (hoffset : offsets r.destinationNodeIndex = some offset) (hlt : offset < 2 ^ 31 - 1) :
    jumpBy r.instructionLocation (distance offsets r) = offset := by
  have hmod : Int.bmod (offset - r.instructionLocation) (2 ^ 32) % 2 ^ 32 =
      (offset - r.instructionLocation : Int) % 2 ^ 32 := by exact_mod_cast Int.bmod_emod
  rw [jumpBy, distance, hoffset, Option.getD_some]
  generalize Int.bmod (offset - r.instructionLocation) (2 ^ 32) = d at hmod
  omega

/-- An edge leads to the start offset of its destination. -/
theorem followEdge_eq {r : LinkRecord} {offset : Nat} (hlinked : Linked offsets r)
    (hat : At bytecode r.jumpLocation (content offsets r))
    (hlocation : r.instructionLocation = m.programCounter)
    (hoffset : offsets r.destinationNodeIndex = some offset) (character : Nat) :
    m.followEdge bytecode character r.jumpLocation r.jumpSize =
      { m with
        programCounter := offset
        urlIndexIsAfterEndOfString := m.urlIndexIsAfterEndOfString || character = 0
        urlIndex := m.urlIndex + 1 } := by
  obtain ⟨offset', hoffset', hlt⟩ := hlinked.destination
  rw [hoffset] at hoffset'
  cases hoffset'
  rw [Machine.followEdge, getJumpDistance_of_at hlinked.fits hat, ← hlocation,
    jumpBy_distance hoffset hlt]

/-- The character as the check of an instruction sees it is 0 only at the end. -/
theorem foldCase_eq_zero (caseSensitive : Bool) (c : Nat) :
    foldCase caseSensitive c = 0 ↔ c = 0 := by
  unfold foldCase
  rcases toASCIILower_cases c with ⟨h1, h2, h⟩ | ⟨h1, h⟩ <;> split_ifs <;> omega

/-- The machine at the start of the destination of an edge. -/
def Machine.moveTo (m : Machine) (offset c : Nat) : Machine :=
  { m with
    programCounter := offset
    urlIndexIsAfterEndOfString := c = 0
    urlIndex := m.urlIndex + 1 }

/-- The target of a check for the character `c`. -/
def checkTarget (c : Nat) : Code → Option Nat
  | .table t => t.target c
  | .range r => if r.Matches c then some r.destination else none
  | _ => none

/-- The operands of a check are characters. -/
def IsCheck : Code → Prop
  | .table t => t.min + t.destinations.length = t.max + 1 ∧ t.min ≤ t.max ∧ t.max < 128
  | .range r => r.min ≤ r.max ∧ r.max < 128
  | _ => False

variable {size : DFABytecodeJumpSize}

theorem followEdge_moveTo {jumpLocation destination : Nat}
    (hlinked : Linked offsets ⟨size, m.programCounter, jumpLocation, destination⟩)
    (hat : At bytecode jumpLocation
      (content offsets ⟨size, m.programCounter, jumpLocation, destination⟩))
    (hend : m.urlIndexIsAfterEndOfString = false) (caseSensitive : Bool) (c : Nat) :
    m.followEdge bytecode (foldCase caseSensitive c) jumpLocation size =
      m.moveTo ((offsets destination).getD 0) c := by
  obtain ⟨offset, hoffset, -⟩ := hlinked.destination
  have hedge := followEdge_eq (m := m) hlinked hat rfl hoffset (foldCase caseSensitive c)
  simp only at hoffset hedge
  simp only [hedge, hoffset, Machine.moveTo, hend, foldCase_eq_zero, Bool.false_or,
    Option.getD_some]

section

variable {instruction : DFABytecodeInstruction} {size : DFABytecodeJumpSize} {a b : Nat}
  {l : List Nat}

theorem checkValue_eq (hat : At bytecode m.programCounter (opcode instruction size :: a :: l))
    (character : Nat) : m.checkValue bytecode character = some
      (if character = a then m.followEdge bytecode character (m.programCounter + 2) size
      else { m with programCounter := m.programCounter + 2 + size.inBytes }) := by
  rw [Machine.checkValue, getJumpSize_of_at hat, readByte_of_at (at_cons.1 hat).2, Option.map_some]

theorem checkValueRange_eq
    (hat : At bytecode m.programCounter (opcode instruction size :: a :: b :: l))
    (character : Nat) : m.checkValueRange bytecode character = some
      (if a ≤ character ∧ character ≤ b then
        m.followEdge bytecode character (m.programCounter + 3) size
      else { m with programCounter := m.programCounter + 3 + size.inBytes }) := by
  rw [Machine.checkValueRange, getJumpSize_of_at hat, readByte_of_at (at_cons.1 hat).2,
    readByte_of_at (at_cons.1 (at_cons.1 hat).2).2, Option.map_some]

theorem interpretJumpTable_eq
    (hat : At bytecode m.programCounter (opcode instruction size :: a :: b :: l))
    (character : Nat) : m.interpretJumpTable bytecode character = some
      (if a ≤ character ∧ character ≤ b then
        m.followEdge bytecode character (m.programCounter + 3 + (character - a) * size.inBytes) size
      else { m with programCounter :=
        m.programCounter + 3 + size.inBytes * (b - a + 1) }) := by
  rw [Machine.interpretJumpTable, getJumpSize_of_at hat, readByte_of_at (at_cons.1 hat).2,
    readByte_of_at (at_cons.1 (at_cons.1 hat).2).2, Option.map_some]

end

/-! Both variants of a check look at the character through `foldCase`. -/

section

variable {caseSensitive : Bool}

theorem step_of_checkValue (h : getInstruction bytecode m.programCounter = some
    (if caseSensitive then .checkValueCaseSensitive else .checkValueCaseInsensitive)) :
    m.step bytecode url flags =
      m.reading (m.checkValue bytecode (foldCase caseSensitive (charAt url m.urlIndex))) := by
  cases caseSensitive <;> simp [Machine.step, h, foldCase]

theorem step_of_checkValueRange (h : getInstruction bytecode m.programCounter = some
    (if caseSensitive then .checkValueRangeCaseSensitive else .checkValueRangeCaseInsensitive)) :
    m.step bytecode url flags =
      m.reading (m.checkValueRange bytecode (foldCase caseSensitive (charAt url m.urlIndex))) := by
  cases caseSensitive <;> simp [Machine.step, h, foldCase]

theorem step_of_jumpTable (h : getInstruction bytecode m.programCounter = some
    (if caseSensitive then .jumpTableCaseSensitive else .jumpTableCaseInsensitive)) :
    m.step bytecode url flags =
      m.reading
        (m.interpretJumpTable bytecode (foldCase caseSensitive (charAt url m.urlIndex))) := by
  cases caseSensitive <;> simp [Machine.step, h, foldCase]

end

theorem reading_some (next : Machine) (hend : m.urlIndexIsAfterEndOfString = false) :
    m.reading (some next) = some (.next next) := by simp [Machine.reading, hend]

/-- The machine after a check that matched or not. -/
def Machine.afterCheck (m : Machine) (offsets : Nat → Option Nat) (c next : Nat) :
    Option Nat → Machine
  | some target => m.moveTo ((offsets target).getD 0) c
  | none => { m with programCounter := next }

/-- The instruction stands at the program counter. -/
structure Executes (bytecode : List Nat) (offsets : Nat → Option Nat) (m : Machine) (code : Code)
    (size : DFABytecodeJumpSize) : Prop where
  bytes : At bytecode m.programCounter
    (Piece.fill (content offsets) (code.pieces size m.programCounter))
  linked : ∀ r ∈ Piece.slots (code.pieces size m.programCounter), Linked offsets r

theorem step_range {r : Range} (hcheck : IsCheck (.range r))
    (h : Executes bytecode offsets m (.range r) size)
    (hend : m.urlIndexIsAfterEndOfString = false) :
    m.step bytecode url flags = some (.next (m.afterCheck offsets (charAt url m.urlIndex)
      (m.programCounter + (Code.range r).length size)
      (checkTarget (charAt url m.urlIndex) (.range r)))) := by
  obtain ⟨hle, hlt⟩ := hcheck
  obtain ⟨hat, hlinked⟩ := h
  have hmin : r.min % 256 = r.min := Nat.mod_eq_of_lt (by omega)
  have hmax : r.max % 256 = r.max := Nat.mod_eq_of_lt (by omega)
  by_cases hsingle : r.min = r.max
  · simp only [Code.pieces, if_pos hsingle, Piece.fill, Piece.slots, List.append_nil,
      List.forall_mem_singleton, hmin] at hat hlinked
    have hedge := followEdge_moveTo hlinked (at_cons.1 (at_cons.1 hat).2).2 hend r.caseSensitive
      (charAt url m.urlIndex)
    rw [step_of_checkValue (getInstruction_of_at_opcode hat), checkValue_eq hat,
      reading_some _ hend, hedge]
    have hmatches : r.Matches (charAt url m.urlIndex) ↔
        foldCase r.caseSensitive (charAt url m.urlIndex) = r.min := by
      unfold Range.Matches
      omega
    simp only [checkTarget, hmatches, Code.length, if_pos hsingle]
    split_ifs
    · rfl
    · simp only [Machine.afterCheck, Nat.add_assoc]
  · simp only [Code.pieces, if_neg hsingle, Piece.fill, Piece.slots, List.append_nil,
      List.forall_mem_singleton, hmin, hmax] at hat hlinked
    have hedge := followEdge_moveTo hlinked (at_cons.1 (at_cons.1 (at_cons.1 hat).2).2).2 hend
      r.caseSensitive (charAt url m.urlIndex)
    rw [step_of_checkValueRange (getInstruction_of_at_opcode hat), checkValueRange_eq hat,
      reading_some _ hend, hedge]
    have hmatches : r.Matches (charAt url m.urlIndex) ↔
        r.min ≤ foldCase r.caseSensitive (charAt url m.urlIndex) ∧
          foldCase r.caseSensitive (charAt url m.urlIndex) ≤ r.max := Iff.rfl
    simp only [checkTarget, hmatches, Code.length, if_neg hsingle]
    split_ifs
    · rfl
    · simp only [Machine.afterCheck, Nat.add_assoc]

theorem at_tableSlots {location k i destination : Nat} {l : List Nat}
    (hat : At bytecode (location + 3 + k * size.inBytes)
      (Piece.fill (content offsets) (tableSlots size location k l)))
    (hi : l[i]? = some destination) :
    At bytecode (location + 3 + (k + i) * size.inBytes) (content offsets
      ⟨size, location, location + 3 + (k + i) * size.inBytes, destination⟩) ∧
    (⟨size, location, location + 3 + (k + i) * size.inBytes, destination⟩ : LinkRecord) ∈
      Piece.slots (tableSlots size location k l) := by
  induction l generalizing k i with
  | nil => simp at hi
  | cons a l ih =>
    rw [tableSlots, Piece.fill, at_append, length_content] at hat
    rw [tableSlots, Piece.slots]
    cases i with
    | zero =>
      simp only [List.getElem?_cons_zero, Option.some.injEq] at hi
      subst hi
      exact ⟨hat.1, List.mem_cons_self⟩
    | succ i =>
      rw [List.getElem?_cons_succ] at hi
      have hnext : location + 3 + k * size.inBytes + size.inBytes =
          location + 3 + (k + 1) * size.inBytes := by rw [Nat.succ_mul]; omega
      rw [hnext] at hat
      obtain ⟨h1, h2⟩ := ih hat.2 hi
      rw [show k + 1 + i = k + (i + 1) by omega] at h1 h2
      exact ⟨h1, List.mem_cons_of_mem _ h2⟩

theorem step_table {t : JumpTable} (hcheck : IsCheck (.table t))
    (h : Executes bytecode offsets m (.table t) size)
    (hend : m.urlIndexIsAfterEndOfString = false) :
    m.step bytecode url flags = some (.next (m.afterCheck offsets (charAt url m.urlIndex)
      (m.programCounter + (Code.table t).length size)
      (checkTarget (charAt url m.urlIndex) (.table t)))) := by
  obtain ⟨hlength, hle, hlt⟩ := hcheck
  obtain ⟨hat, hlinked⟩ := h
  have hmin : t.min % 256 = t.min := Nat.mod_eq_of_lt (by omega)
  have hmax : t.max % 256 = t.max := Nat.mod_eq_of_lt (by omega)
  simp only [Code.pieces, List.cons_append, List.nil_append, Piece.fill, Piece.slots, hmin,
    hmax] at hat hlinked
  rw [step_of_jumpTable (getInstruction_of_at_opcode hat), interpretJumpTable_eq hat,
    reading_some _ hend]
  simp only [checkTarget, JumpTable.target, Code.length]
  split_ifs with hin
  · have hindex : foldCase t.caseSensitive (charAt url m.urlIndex) - t.min <
        t.destinations.length := by omega
    obtain ⟨hslot, hmem⟩ := at_tableSlots (k := 0)
      (by simpa using (at_cons.1 (at_cons.1 (at_cons.1 hat).2).2).2)
      (List.getElem?_eq_getElem hindex)
    rw [Nat.zero_add] at hslot hmem
    rw [followEdge_moveTo (hlinked _ hmem) hslot hend, List.getElem?_eq_getElem hindex]
    rfl
  · simp only [Machine.afterCheck, Nat.add_assoc, Nat.mul_comm size.inBytes]
    rw [show t.max - t.min + 1 = t.destinations.length by omega]

theorem step_jump {target : Nat} (h : Executes bytecode offsets m (.jump target) size)
    (hend : m.urlIndexIsAfterEndOfString = false) :
    m.step bytecode url flags = some (if charAt url m.urlIndex = 0 then .nextDFA m.actions
      else .next (m.moveTo ((offsets target).getD 0) (charAt url m.urlIndex))) := by
  obtain ⟨hat, hlinked⟩ := h
  simp only [Code.pieces, Piece.fill, Piece.slots, List.append_nil,
    List.forall_mem_singleton] at hat hlinked
  have hedge := followEdge_moveTo hlinked (at_cons.1 hat).2 hend true (charAt url m.urlIndex)
  simp only [foldCase, if_true] at hedge
  simp only [Machine.step, getInstruction_of_at_opcode hat, Machine.jump, getJumpSize_of_at hat,
    Option.map_some, hedge, reading_some _ hend]
  split_ifs <;> rfl

theorem step_terminate (h : Executes bytecode offsets m .terminate size) :
    m.step bytecode url flags = some (.nextDFA m.actions) := by
  have hat := h.bytes
  simp only [Code.pieces, Piece.fill] at hat
  simp [Machine.step, getInstruction_of_at hat]

/-- An instruction that is not an action. -/
def Code.IsTransition : Code → Prop
  | .action _ => False
  | _ => True

/-- After the end marker no transition is taken. -/
theorem step_afterEnd {code : Code} (h : Executes bytecode offsets m code size)
    (htransition : Code.IsTransition code) (hend : m.urlIndexIsAfterEndOfString = true) :
    m.step bytecode url flags = some (.nextDFA m.actions) := by
  have hreading : ∀ next, m.reading next = some (.nextDFA m.actions) := fun next => by
    simp [Machine.reading, hend]
  have hat := h.bytes
  cases code with
  | action a => exact htransition.elim
  | terminate => exact step_terminate h
  | jump target =>
    simp only [Code.pieces, Piece.fill] at hat
    simp [Machine.step, getInstruction_of_at_opcode hat, hreading]
  | table t =>
    simp only [Code.pieces, List.cons_append, Piece.fill] at hat
    rw [step_of_jumpTable (getInstruction_of_at_opcode hat), hreading]
  | range r =>
    by_cases hsingle : r.min = r.max
    · simp only [Code.pieces, if_pos hsingle, Piece.fill] at hat
      rw [step_of_checkValue (getInstruction_of_at_opcode hat), hreading]
    · simp only [Code.pieces, if_neg hsingle, Piece.fill] at hat
      rw [step_of_checkValueRange (getInstruction_of_at_opcode hat), hreading]

/-- The bytes of an action, read back. -/
theorem readLE_actionBytes {a location : Nat} (ha : a < 2 ^ 49)
    (hat : At bytecode location (actionBytes a)) :
    if actionFlags a = 0 then
      getInstruction bytecode location =
        some (if hasIfDomainFlag a then .appendActionWithIfDomain else .appendAction) ∧
      makeAction (hasIfDomainFlag a) 0 (readLE bytecode 4 (location + 1)) = a
    else
      getInstruction bytecode location =
        some (if hasIfDomainFlag a then .testFlagsAndAppendActionWithIfDomain
          else .testFlagsAndAppendAction) ∧
      readLE bytecode 2 (location + 1) = actionFlags a ∧
      makeAction (hasIfDomainFlag a) (actionFlags a) (readLE bytecode 4 (location + 3)) = a := by
  have hparts := makeAction_parts ha
  have hlocation : actionLocation a % 256 ^ 4 = actionLocation a :=
    Nat.mod_eq_of_lt (Nat.mod_lt _ (by decide))
  have hflags : actionFlags a % 256 ^ 2 = actionFlags a :=
    Nat.mod_eq_of_lt (Nat.mod_lt _ (by decide))
  unfold actionBytes at hat
  by_cases hzero : actionFlags a = 0
  · rw [if_pos hzero]
    rw [if_neg (not_not.2 hzero)] at hat
    refine ⟨getInstruction_of_at hat, ?_⟩
    rw [readLE_of_at (at_cons.1 hat).2, hlocation, ← hzero, hparts]
  · rw [if_neg hzero]
    rw [if_pos hzero] at hat
    obtain ⟨hfirst, hsecond⟩ := at_append.1 (at_cons.1 hat).2
    rw [length_littleEndian] at hsecond
    refine ⟨getInstruction_of_at hat, by rw [readLE_of_at hfirst, hflags], ?_⟩
    rw [show location + 3 = location + 1 + 2 by omega, readLE_of_at hsecond, hlocation, hparts]

theorem length_actionBytes (a : Nat) :
    (actionBytes a).length = if actionFlags a = 0 then 5 else 7 := by
  unfold actionBytes
  split_ifs <;> simp_all

theorem step_action {a : Nat} (ha : a < 2 ^ 49)
    (hat : At bytecode m.programCounter (actionBytes a)) :
    m.step bytecode url flags = some (.next { m with
      programCounter := m.programCounter + (actionBytes a).length
      actions := if actionMatches flags a then insert a m.actions else m.actions }) := by
  have hread := readLE_actionBytes ha hat
  rw [length_actionBytes]
  by_cases hzero : actionFlags a = 0
  · rw [if_pos hzero] at hread
    obtain ⟨hinstruction, haction⟩ := hread
    have hmatches : actionMatches flags a = true := by simp [actionMatches, hzero]
    simp only [if_pos hzero, hmatches, if_true]
    cases hdomain : hasIfDomainFlag a <;> rw [hdomain] at hinstruction haction <;>
      simp [Machine.step, hinstruction, Machine.withActions, interpretAppendAction, haction]
  · rw [if_neg hzero] at hread
    obtain ⟨hinstruction, hflags, haction⟩ := hread
    have hmatches : actionMatches flags a = flagsMatch (actionFlags a) flags := by
      simp [actionMatches, hzero]
    simp only [if_neg hzero, hmatches]
    cases hdomain : hasIfDomainFlag a <;> rw [hdomain] at hinstruction haction <;>
      simp [Machine.step, hinstruction, Machine.withActions, interpretTestFlagsAndAppendAction,
        hflags, haction]

end Step

/-! ## Runs -/

/-- With enough fuel the machine ends with the actions. -/
def Runs (bytecode url : List Nat) (flags : Nat) (m : Machine) (result : Finset Nat) : Prop :=
  ∃ n, ∀ fuel, n ≤ fuel → m.run bytecode url flags fuel = some result

section Runs

variable {bytecode url : List Nat} {flags : Nat} {m m' : Machine} {result : Finset Nat}

theorem Runs.next (hstep : m.step bytecode url flags = some (.next m'))
    (h : Runs bytecode url flags m' result) : Runs bytecode url flags m result := by
  obtain ⟨n, hn⟩ := h
  refine ⟨n + 1, fun fuel hfuel => ?_⟩
  obtain ⟨fuel, rfl⟩ : ∃ k, fuel = k + 1 := ⟨fuel - 1, by omega⟩
  simp [Machine.run, hstep, hn fuel (by omega)]

theorem Runs.done (hstep : m.step bytecode url flags = some (.nextDFA result)) :
    Runs bytecode url flags m result := by
  refine ⟨1, fun fuel hfuel => ?_⟩
  obtain ⟨fuel, rfl⟩ : ∃ k, fuel = k + 1 := ⟨fuel - 1, by omega⟩
  simp [Machine.run, hstep]

end Runs

section Node

variable {bytecode url : List Nat} {offsets : Nat → Option Nat} {flags c : Nat} {m : Machine}
  {result : Finset Nat}

theorem CodeAt.uncons {code : Code} {rest : List Code}
    (h : CodeAt bytecode offsets m.programCounter (code :: rest)) :
    ∃ size, Executes bytecode offsets m code size ∧
      CodeAt bytecode offsets (m.programCounter + code.length size) rest := by
  cases h with
  | cons size hat hlinked hrest => exact ⟨size, ⟨hat, hlinked⟩, hrest⟩

theorem step_check {code : Code} {size : DFABytecodeJumpSize} (hcheck : IsCheck code)
    (h : Executes bytecode offsets m code size) (hend : m.urlIndexIsAfterEndOfString = false) :
    m.step bytecode url flags = some (.next (m.afterCheck offsets (charAt url m.urlIndex)
      (m.programCounter + code.length size) (checkTarget (charAt url m.urlIndex) code))) := by
  cases code with
  | table t => exact step_table hcheck h hend
  | range r => exact step_range hcheck h hend
  | _ => exact hcheck.elim

/-- If some check matches and all that match have one target, the target is reached. -/
theorem Runs.checks_match {codes : List Code} {last : Code} {target : Nat}
    (hat : CodeAt bytecode offsets m.programCounter (codes ++ [last]))
    (hend : m.urlIndexIsAfterEndOfString = false) (hc : charAt url m.urlIndex = c)
    (hchecks : ∀ code ∈ codes, IsCheck code)
    (hsound : ∀ code ∈ codes, ∀ t, checkTarget c code = some t → t = target)
    (hmatch : ∃ code ∈ codes, checkTarget c code = some target)
    (h : Runs bytecode url flags (m.moveTo ((offsets target).getD 0) c) result) :
    Runs bytecode url flags m result := by
  induction codes generalizing m with
  | nil => simp at hmatch
  | cons code codes ih =>
    obtain ⟨size, hexec, hrest⟩ := CodeAt.uncons hat
    have hstep : m.step bytecode url flags = _ :=
      step_check (hchecks code List.mem_cons_self) hexec hend
    rw [hc] at hstep
    refine Runs.next hstep ?_
    cases htarget : checkTarget c code with
    | some t =>
      cases hsound code List.mem_cons_self t htarget
      exact h
    | none =>
      refine ih hrest hend hc (fun q hq => hchecks q (List.mem_cons_of_mem _ hq))
        (fun q hq => hsound q (List.mem_cons_of_mem _ hq)) ?_ h
      obtain ⟨q, hq, hqt⟩ := hmatch
      rcases List.mem_cons.1 hq with rfl | hq
      · simp [htarget] at hqt
      · exact ⟨q, hq, hqt⟩

/-- If no check matches, the last instruction is reached. -/
theorem Runs.checks_none {codes : List Code} {last : Code}
    (hat : CodeAt bytecode offsets m.programCounter (codes ++ [last]))
    (hend : m.urlIndexIsAfterEndOfString = false) (hc : charAt url m.urlIndex = c)
    (hchecks : ∀ code ∈ codes, IsCheck code)
    (hnone : ∀ code ∈ codes, checkTarget c code = none)
    (h : ∀ programCounter, CodeAt bytecode offsets programCounter [last] →
      Runs bytecode url flags { m with programCounter := programCounter } result) :
    Runs bytecode url flags m result := by
  induction codes generalizing m with
  | nil => exact h m.programCounter hat
  | cons code codes ih =>
    obtain ⟨size, hexec, hrest⟩ := CodeAt.uncons hat
    have hstep : m.step bytecode url flags = _ :=
      step_check (hchecks code List.mem_cons_self) hexec hend
    rw [hc, hnone code List.mem_cons_self] at hstep
    exact Runs.next hstep (ih hrest hend hc (fun q hq => hchecks q (List.mem_cons_of_mem _ hq))
      (fun q hq => hnone q (List.mem_cons_of_mem _ hq)) h)

end Node

/-! ## Nodes -/

/-- The transition of a compiled node: a fallback jump is not taken on the end marker. -/
def compiledNext (node : DFANode) (c : Nat) : Option Nat :=
  match checkedNext node c with
  | some target => some target
  | none => if c = 0 then none else fallback node

/-- A compiled node has the transitions of the node on all characters but the end marker. -/
theorem compiledNext_eq {dfa : DFA} {node : DFANode} (wf : node.WellFormed dfa) {c : Nat}
    (hpos : 0 < c) (hc : c < 128) : compiledNext node c = node.next c := by
  unfold compiledNext checkedNext
  cases hnext : node.next c with
  | some target =>
    by_cases hfallback : fallback node = some target <;> simp [hfallback, hpos.ne']
  | none =>
    have hnone : fallback node = none := by
      unfold fallback
      rw [if_neg]
      intro hcan
      obtain ⟨t, ht, htc⟩ := DFANode.exists_of_canUseFallbackTransition hcan hpos (by omega)
      rw [DFANode.next_of_mem wf.toHasTransitions ht htc] at hnext
      simp at hnext
    simp [hnone]

theorem isCheck_of_represents {node : DFANode} {dfa : DFA} (wf : node.WellFormed dfa) (code : Code)
    (h : code ∈ (transitions node).jumpTables.map .table ++ (transitions node).ranges.map .range) :
    IsCheck code ∧ ∀ c target, c < 128 → checkTarget c code = some target →
      checkedNext node c = some target := by
  have hrep := represents_transitions wf
  rcases List.mem_append.1 h with h | h
  · obtain ⟨t, ht, rfl⟩ := List.mem_map.1 h
    have ht := hrep.tablesWellFormed t ht
    exact ⟨⟨ht.length, ht.nonempty, ht.ascii⟩, ht.sound⟩
  · obtain ⟨r, hr, rfl⟩ := List.mem_map.1 h
    have hr := hrep.rangesWellFormed r hr
    refine ⟨⟨hr.ordered, hr.ascii⟩, fun c target hc htarget => ?_⟩
    simp only [checkTarget] at htarget
    split_ifs at htarget with hmatches
    cases htarget
    exact hr.sound c hc hmatches

theorem exists_check {node : DFANode} {dfa : DFA} (wf : node.WellFormed dfa) {c target : Nat}
    (hc : c < 128) (h : checkedNext node c = some target) :
    ∃ code ∈ (transitions node).jumpTables.map .table ++ (transitions node).ranges.map .range,
      checkTarget c code = some target := by
  have hrep := represents_transitions wf
  rcases hrep.complete c target hc h with ⟨t, ht, htc⟩ | ⟨r, hr, hrc⟩
  · exact ⟨.table t, List.mem_append_left _ (List.mem_map_of_mem ht), htc⟩
  · refine ⟨.range r, List.mem_append_right _ (List.mem_map_of_mem hr), ?_⟩
    have hsound := (hrep.rangesWellFormed r hr).sound c hc hrc
    rw [h] at hsound
    cases hsound
    simp [checkTarget, hrc]

section Transitions

variable {bytecode url : List Nat} {offsets : Nat → Option Nat} {flags c : Nat} {m : Machine}
  {result : Finset Nat} {dfa : DFA} {node : DFANode}

/-- The transition instructions of a node take the transition of the compiled node. -/
theorem Runs.transition (wf : node.WellFormed dfa)
    (hat : CodeAt bytecode offsets m.programCounter (transitionCode node))
    (hend : m.urlIndexIsAfterEndOfString = false) (hchar : charAt url m.urlIndex = c)
    (hc : c < 128) {target : Nat} (hnext : compiledNext node c = some target)
    (h : Runs bytecode url flags (m.moveTo ((offsets target).getD 0) c) result) :
    Runs bytecode url flags m result := by
  have hchecks := fun code hcode => (isCheck_of_represents wf code hcode).1
  unfold compiledNext at hnext
  cases hchecked : checkedNext node c with
  | some target' =>
    rw [hchecked] at hnext
    cases hnext
    refine Runs.checks_match hat hend hchar hchecks (fun code hcode t ht => ?_)
      (exists_check wf hc hchecked) h
    have := (isCheck_of_represents wf _ hcode).2 c t hc ht
    rw [hchecked] at this
    exact (Option.some.inj this).symm
  | none =>
    rw [hchecked] at hnext
    simp only at hnext
    split_ifs at hnext with hzero
    refine Runs.checks_none hat hend hchar hchecks (fun code hcode => ?_) fun pc hpc => ?_
    · by_contra hsome
      obtain ⟨t, ht⟩ := Option.ne_none_iff_exists'.1 hsome
      have := (isCheck_of_represents wf _ hcode).2 c t hc ht
      simp [hchecked] at this
    · rw [lastCode, hnext] at hpc
      obtain ⟨size, hexec, -⟩ := CodeAt.uncons (m := { m with programCounter := pc }) hpc
      refine Runs.next ?_ h
      rw [step_jump hexec hend]
      simp [hchar, hzero, Machine.moveTo]

/-- A node without a transition ends the run. -/
theorem Runs.noTransition (wf : node.WellFormed dfa)
    (hat : CodeAt bytecode offsets m.programCounter (transitionCode node))
    (hend : m.urlIndexIsAfterEndOfString = false) (hchar : charAt url m.urlIndex = c)
    (hc : c < 128) (hnext : compiledNext node c = none) :
    Runs bytecode url flags m m.actions := by
  have hchecks := fun code hcode => (isCheck_of_represents wf code hcode).1
  unfold compiledNext at hnext
  cases hchecked : checkedNext node c with
  | some target => simp [hchecked] at hnext
  | none =>
    simp only [hchecked] at hnext
    refine Runs.checks_none hat hend hchar hchecks (fun code hcode => ?_) fun pc hpc => ?_
    · by_contra hsome
      obtain ⟨t, ht⟩ := Option.ne_none_iff_exists'.1 hsome
      have := (isCheck_of_represents wf _ hcode).2 c t hc ht
      simp [hchecked] at this
    · obtain ⟨size, hexec, -⟩ := CodeAt.uncons (m := { m with programCounter := pc }) hpc
      refine Runs.done ?_
      unfold lastCode at hexec
      split_ifs at hnext with hzero
      · cases hfallback : fallback node with
        | none =>
          rw [hfallback] at hexec
          exact step_terminate hexec
        | some target =>
          rw [hfallback] at hexec
          rw [step_jump hexec hend]
          simp [hchar, hzero]
      · rw [hnext] at hexec
        exact step_terminate hexec

end Transitions

theorem compiledNext_zero (node : DFANode) : compiledNext node 0 = checkedNext node 0 := by
  unfold compiledNext
  cases checkedNext node 0 <;> simp

end DFABytecodeInterpreter

end Odyssey.ContentExtensions
