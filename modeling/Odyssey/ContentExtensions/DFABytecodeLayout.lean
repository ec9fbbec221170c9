import Odyssey.ContentExtensions.DFABytecodeTransitions

/-!
# Where the instructions stand in the bytecode

The compiler is followed on the level of whole instructions. Each emitting function appends the
pieces of one instruction, and linking fills in the distances, so that the linked bytecode contains
the instructions of each compiled node from its start offset on.
-/
namespace Odyssey.ContentExtensions

namespace DFABytecodeCompiler

open Lib.Bytes

/-- An instruction with the node it jumps to. -/
inductive Code where
  | action (a : Nat)
  | table (jumpTable : JumpTable)
  | range (range : Range)
  | jump (target : Nat)
  | terminate

/-- The last instruction of a node. -/
def lastCode (node : DFANode) : Code :=
  match fallback node with
  | some target => .jump target
  | none => .terminate

def transitionCode (node : DFANode) : List Code :=
  (transitions node).jumpTables.map .table ++ (transitions node).ranges.map .range ++
    [lastCode node]

def nodeCode (node : DFANode) : List Code := node.actions.map .action ++ transitionCode node

/-- The slots of a jump table, from the `k`-th on. -/
def tableSlots (size : DFABytecodeJumpSize) (location : Nat) :
    Nat → List Nat → List (Piece LinkRecord)
  | _, [] => []
  | k, destination :: rest =>
    .slot ⟨size, location, location + 3 + k * size.inBytes, destination⟩ ::
      tableSlots size location (k + 1) rest

/-- The pieces of an instruction at the location, with jumps of the given size. -/
def Code.pieces (size : DFABytecodeJumpSize) (location : Nat) : Code → List (Piece LinkRecord)
  | .action a => (actionBytes a).map .byte
  | .table t =>
    [.byte (opcode (if t.caseSensitive then .jumpTableCaseSensitive else .jumpTableCaseInsensitive)
      size), .byte (t.min % 256), .byte (t.max % 256)] ++ tableSlots size location 0 t.destinations
  | .range r =>
    if r.min = r.max then
      [.byte (opcode (if r.caseSensitive then .checkValueCaseSensitive
        else .checkValueCaseInsensitive) size), .byte (r.min % 256),
        .slot ⟨size, location, location + 2, r.destination⟩]
    else
      [.byte (opcode (if r.caseSensitive then .checkValueRangeCaseSensitive
        else .checkValueRangeCaseInsensitive) size), .byte (r.min % 256), .byte (r.max % 256),
        .slot ⟨size, location, location + 3, r.destination⟩]
  | .jump target => [.byte (opcode .jump size), .slot ⟨size, location, location + 1, target⟩]
  | .terminate => [.byte DFABytecodeInstruction.terminate.code]

/-- The length of an instruction with jumps of the given size. -/
def Code.length (size : DFABytecodeJumpSize) : Code → Nat
  | .action a => (actionBytes a).length
  | .table t => 3 + t.destinations.length * size.inBytes
  | .range r => if r.min = r.max then 2 + size.inBytes else 3 + size.inBytes
  | .jump _ => 1 + size.inBytes
  | .terminate => 1

def blank (r : LinkRecord) : List Nat := List.replicate r.jumpSize.inBytes 0

abbrev Placed : Nat → List (Piece LinkRecord) → Prop :=
  Piece.Placed (fun r => r.jumpSize.inBytes) LinkRecord.jumpLocation

theorem length_blank (r : LinkRecord) : (blank r).length = r.jumpSize.inBytes := by simp [blank]

/-- The pieces are instructions that follow each other from the location on. -/
inductive Lays : Nat → List Code → List (Piece LinkRecord) → Prop
  | nil (location : Nat) : Lays location [] []
  | cons {location : Nat} {code : Code} {rest : List Code} {ps : List (Piece LinkRecord)}
      (size : DFABytecodeJumpSize) : Lays (location + code.length size) rest ps →
      Lays location (code :: rest) (code.pieces size location ++ ps)

section Pieces

variable {content : LinkRecord → List Nat} (hcontent : ∀ r, (content r).length = r.jumpSize.inBytes)
include hcontent

theorem length_fill_tableSlots (size : DFABytecodeJumpSize) (location k : Nat) (l : List Nat) :
    (Piece.fill content (tableSlots size location k l)).length = l.length * size.inBytes := by
  induction l generalizing k with
  | nil => simp [tableSlots, Piece.fill]
  | cons a l ih =>
    simp only [tableSlots, Piece.fill, List.length_append, hcontent, ih, List.length_cons]
    rw [Nat.succ_mul, Nat.add_comm]

theorem length_fill_pieces (size : DFABytecodeJumpSize) (location : Nat) (code : Code) :
    (Piece.fill content (code.pieces size location)).length = code.length size := by
  cases code with
  | action a => simp [Code.pieces, Code.length, Piece.fill_map_byte]
  | table t =>
    simp only [Code.pieces, Code.length, List.cons_append, Piece.fill, List.length_cons,
      List.nil_append, length_fill_tableSlots hcontent]
    omega
  | range r =>
    simp only [Code.pieces, Code.length]
    split_ifs <;> simp only [Piece.fill, List.length_cons, List.length_append, hcontent,
      List.length_nil] <;> omega
  | jump t =>
    simp only [Code.pieces, Code.length, Piece.fill, List.length_cons, List.length_append,
      hcontent, List.length_nil]
    omega
  | terminate => rfl

end Pieces

/-! ## Emitting -/

/-- What was written so far are the pieces, with their slots blank. -/
structure Emitted (s : State) (ps : List (Piece LinkRecord)) : Prop where
  bytecode : s.bytecode = Piece.fill blank ps
  linkRecords : s.linkRecords = Piece.slots ps
  placed : Placed 0 ps

namespace Emitted

variable {dfa : DFA} {s : State} {ps : List (Piece LinkRecord)}

theorem append (h : Emitted s ps) (l : List Nat) :
    Emitted (s.append l) (ps ++ l.map .byte) := by
  refine ⟨?_, ?_, ?_⟩
  · rw [State.append, h.bytecode, Piece.fill_append, Piece.fill_map_byte]
  · rw [State.append, h.linkRecords, Piece.slots_append, Piece.slots_map_byte, List.append_nil]
  · exact (Piece.placed_append length_blank).2 ⟨h.placed, Piece.placed_map_byte _ _ _ _⟩

theorem appendJump (h : Emitted s ps) (size : DFABytecodeJumpSize) (location destination : Nat) :
    Emitted (s.appendJump size location destination)
      (ps ++ [.slot ⟨size, location, s.bytecode.length, destination⟩]) := by
  refine ⟨?_, ?_, ?_⟩
  · simp [State.appendJump, h.bytecode, Piece.fill_append, Piece.fill, blank]
  · simp [State.appendJump, h.linkRecords, Piece.slots_append, Piece.slots]
  · refine (Piece.placed_append length_blank).2 ⟨h.placed, ?_⟩
    simp [Piece.Placed, h.bytecode]

theorem emitAppendAction (h : Emitted s ps) (a : Nat) (size : DFABytecodeJumpSize) :
    Emitted (s.emitAppendAction a) (ps ++ (Code.action a).pieces size s.bytecode.length) :=
  h.append (actionBytes a)

theorem emitTerminate (h : Emitted s ps) (size : DFABytecodeJumpSize) :
    Emitted s.emitTerminate (ps ++ Code.terminate.pieces size s.bytecode.length) :=
  h.append [_]

theorem emitJump (h : Emitted s ps) (source target : Nat) :
    Emitted (s.emitJump dfa source target) (ps ++
      (Code.jump target).pieces (jumpSizeFor dfa s source target) s.bytecode.length) := by
  simpa [State.emitJump, Code.pieces, State.append] using
    (h.append [opcode .jump (jumpSizeFor dfa s source target)]).appendJump
      (jumpSizeFor dfa s source target) s.bytecode.length target

theorem compileCheckForRange (h : Emitted s ps) (source : Nat) (r : Range) :
    Emitted (s.compileCheckForRange dfa source r) (ps ++
      (Code.range r).pieces (jumpSizeFor dfa s source r.destination) s.bytecode.length) := by
  unfold State.compileCheckForRange Code.pieces
  split_ifs with hsingle
  · simpa [State.emitCheckValue, State.append, hsingle] using
      (h.append [opcode (if r.caseSensitive then .checkValueCaseSensitive
        else .checkValueCaseInsensitive) (jumpSizeFor dfa s source r.destination),
        r.min % 256]).appendJump
        (jumpSizeFor dfa s source r.destination) s.bytecode.length r.destination
  · simpa [State.emitCheckValueRange, State.append, hsingle] using
      (h.append [opcode (if r.caseSensitive then .checkValueRangeCaseSensitive
        else .checkValueRangeCaseInsensitive) (jumpSizeFor dfa s source r.destination),
        r.min % 256, r.max % 256]).appendJump
        (jumpSizeFor dfa s source r.destination) s.bytecode.length r.destination

theorem appendJumps (h : Emitted s ps) (size : DFABytecodeJumpSize) (location k : Nat)
    (hlength : s.bytecode.length = location + 3 + k * size.inBytes) (l : List Nat) :
    Emitted (l.foldl (fun t destination => t.appendJump size location destination) s)
      (ps ++ tableSlots size location k l) := by
  induction l generalizing s ps k with
  | nil => simpa [tableSlots] using h
  | cons a l ih =>
    have hnext : (s.appendJump size location a).bytecode.length =
        location + 3 + (k + 1) * size.inBytes := by
      simp only [State.appendJump, List.length_append, List.length_replicate, hlength,
        Nat.succ_mul]
      omega
    have := ih (h.appendJump size location a) (k + 1) hnext
    simpa [tableSlots, hlength] using this

end Emitted

/-- The size chosen for the jumps of a table. -/
def tableJumpSize (dfa : DFA) (s : State) (source : Nat) (destinations : List Nat) :
    DFABytecodeJumpSize :=
  destinations.foldl (fun size destination => size.max (jumpSizeFor dfa s source destination))
    .int8

variable {ps : List (Piece LinkRecord)}

theorem Emitted.compileJumpTable {dfa : DFA} {s : State} (h : Emitted s ps) (source : Nat)
    (t : JumpTable) :
    Emitted (s.compileJumpTable dfa source t) (ps ++
      (Code.table t).pieces (tableJumpSize dfa s source t.destinations) s.bytecode.length) := by
  have := (h.append [opcode (if t.caseSensitive then .jumpTableCaseSensitive
    else .jumpTableCaseInsensitive) (tableJumpSize dfa s source t.destinations), t.min % 256,
    t.max % 256]).appendJumps (tableJumpSize dfa s source t.destinations) s.bytecode.length 0
    (by simp [State.append]) t.destinations
  simpa [State.compileJumpTable, tableJumpSize, Code.pieces, State.append] using this

/-- The jump size of the record was chosen for the longest possible jump, or is larger. -/
def Chosen (dfa : DFA) (offsets : Nat → Option Nat) (source : Nat) (r : LinkRecord) : Prop :=
  (smallestPossibleJumpSize (longestPossibleJump dfa offsets r.instructionLocation source
    r.destinationNodeIndex)).inBytes ≤ r.jumpSize.inBytes

def Code.targets : Code → List Nat
  | .action _ => []
  | .table t => t.destinations
  | .range r => [r.destination]
  | .jump target => [target]
  | .terminate => []

/-- From `s` to `t` the instructions were written, as a part of the node `source`. -/
structure Emits (dfa : DFA) (source : Nat) (s t : State) (codes : List Code) : Prop where
  offsets : t.nodeStartOffsets = s.nodeStartOffsets
  pieces : ∀ ps, Emitted s ps → ∃ qs, Emitted t (ps ++ qs) ∧ Lays s.bytecode.length codes qs ∧
    ∀ r ∈ Piece.slots qs, Chosen dfa s.nodeStartOffsets source r

section Lays

variable {location : Nat} {codes : List Code} {ps : List (Piece LinkRecord)}

theorem Lays.append {rest : List Code} {qs : List (Piece LinkRecord)} (h : Lays location codes ps)
    (h' : Lays (location + (Piece.fill blank ps).length) rest qs) :
    Lays location (codes ++ rest) (ps ++ qs) := by
  induction h with
  | nil location => simpa [Piece.fill] using h'
  | cons size _ ih =>
    rw [List.cons_append, List.append_assoc]
    refine .cons size (ih ?_)
    rwa [Piece.fill_append, List.length_append, length_fill_pieces length_blank,
      ← Nat.add_assoc] at h'

theorem slots_tableSlots {size : DFABytecodeJumpSize} {location k : Nat} {l : List Nat}
    {r : LinkRecord} (h : r ∈ Piece.slots (tableSlots size location k l)) :
    r.jumpSize = size ∧ r.instructionLocation = location ∧ r.destinationNodeIndex ∈ l := by
  induction l generalizing k with
  | nil => simp [tableSlots, Piece.slots] at h
  | cons a l ih =>
    rw [tableSlots, Piece.slots] at h
    rcases List.mem_cons.1 h with rfl | h
    · simp
    · obtain ⟨h1, h2, h3⟩ := ih h
      exact ⟨h1, h2, List.mem_cons_of_mem _ h3⟩

theorem slots_pieces {size : DFABytecodeJumpSize} {location : Nat} {code : Code} {r : LinkRecord}
    (h : r ∈ Piece.slots (code.pieces size location)) :
    r.jumpSize = size ∧ r.instructionLocation = location ∧
      r.destinationNodeIndex ∈ code.targets := by
  cases code with
  | action a => simp [Code.pieces, Piece.slots_map_byte] at h
  | table t =>
    simp only [Code.pieces, List.cons_append, List.nil_append, Piece.slots] at h
    exact slots_tableSlots h
  | range q =>
    simp only [Code.pieces] at h
    split_ifs at h <;> simp_all [Piece.slots, Code.targets]
  | jump t => simp_all [Code.pieces, Piece.slots, Code.targets]
  | terminate => simp [Code.pieces, Piece.slots] at h

end Lays

namespace Emits

variable {dfa : DFA} {source : Nat} {s t u : State} {codes rest : List Code}

theorem refl : Emits dfa source s s [] :=
  ⟨rfl, fun ps h => ⟨[], by simpa using h, .nil _, by simp [Piece.slots]⟩⟩

theorem trans (h : Emits dfa source s t codes) (h' : Emits dfa source t u rest) :
    Emits dfa source s u (codes ++ rest) := by
  refine ⟨h'.offsets.trans h.offsets, fun ps hps => ?_⟩
  obtain ⟨qs, hqs, hlays, hchosen⟩ := h.pieces ps hps
  obtain ⟨rs, hrs, hlays', hchosen'⟩ := h'.pieces _ hqs
  refine ⟨qs ++ rs, by rwa [← List.append_assoc], hlays.append ?_, ?_⟩
  · rwa [hqs.bytecode, Piece.fill_append, List.length_append, ← hps.bytecode] at hlays'
  · intro r hr
    rw [Piece.slots_append] at hr
    rcases List.mem_append.1 hr with hr | hr
    · exact hchosen r hr
    · exact h.offsets ▸ hchosen' r hr

theorem single {code : Code} (size : DFABytecodeJumpSize)
    (hoffsets : t.nodeStartOffsets = s.nodeStartOffsets)
    (hpieces : ∀ ps, Emitted s ps → Emitted t (ps ++ code.pieces size s.bytecode.length))
    (hchosen : ∀ target ∈ code.targets, (jumpSizeFor dfa s source target).inBytes ≤ size.inBytes) :
    Emits dfa source s t [code] := by
  refine ⟨hoffsets, fun ps hps => ⟨_, hpieces ps hps, ?_, fun r hr => ?_⟩⟩
  · have : Lays s.bytecode.length [code] (code.pieces size s.bytecode.length ++ []) :=
      .cons size (.nil _)
    rwa [List.append_nil] at this
  · obtain ⟨hsize, hlocation, htarget⟩ := slots_pieces hr
    rw [Chosen, hsize, hlocation]
    exact hchosen _ htarget

theorem foldl {α : Type} {f : State → α → State} {code : α → Code}
    (h : ∀ s a, Emits dfa source s (f s a) [code a]) (s : State) (l : List α) :
    Emits dfa source s (l.foldl f s) (l.map code) := by
  induction l generalizing s with
  | nil => exact refl
  | cons a l ih => exact (h s a).trans (ih (f s a))

theorem emitAppendAction (s : State) (a : Nat) :
    Emits dfa source s (s.emitAppendAction a) [.action a] :=
  single .int8 rfl (fun _ h => h.emitAppendAction a .int8) (by simp [Code.targets])

theorem emitTerminate (s : State) : Emits dfa source s s.emitTerminate [.terminate] :=
  single .int8 rfl (fun _ h => h.emitTerminate .int8) (by simp [Code.targets])

theorem emitJump (s : State) (target : Nat) :
    Emits dfa source s (s.emitJump dfa source target) [.jump target] :=
  single _ rfl (fun _ h => h.emitJump source target) (by simp [Code.targets])

theorem compileCheckForRange (s : State) (r : Range) :
    Emits dfa source s (s.compileCheckForRange dfa source r) [.range r] := by
  refine single _ ?_ (fun _ h => h.compileCheckForRange source r) (by simp [Code.targets])
  unfold State.compileCheckForRange
  split_ifs <;> rfl

theorem foldl_appendJump_offsets (size : DFABytecodeJumpSize) (location : Nat) (l : List Nat)
    (s : State) :
    (l.foldl (fun t destination => t.appendJump size location destination) s).nodeStartOffsets =
      s.nodeStartOffsets := by
  induction l generalizing s with
  | nil => rfl
  | cons a l ih => exact ih _

theorem le_foldl_max (f : Nat → DFABytecodeJumpSize) (l : List Nat) (size : DFABytecodeJumpSize) :
    size.inBytes ≤ (l.foldl (fun size a => size.max (f a)) size).inBytes ∧
      ∀ a ∈ l, (f a).inBytes ≤ (l.foldl (fun size a => size.max (f a)) size).inBytes := by
  induction l generalizing size with
  | nil => simp
  | cons a l ih =>
    obtain ⟨hsize, hrest⟩ := ih (size.max (f a))
    have hmax : size.inBytes ≤ (size.max (f a)).inBytes ∧
        (f a).inBytes ≤ (size.max (f a)).inBytes := by
      generalize f a = b
      cases size <;> cases b <;> decide
    refine ⟨hmax.1.trans hsize, fun b hb => ?_⟩
    rcases List.mem_cons.1 hb with rfl | hb
    · exact hmax.2.trans hsize
    · exact hrest b hb

theorem compileJumpTable (s : State) (t : JumpTable) :
    Emits dfa source s (s.compileJumpTable dfa source t) [.table t] := by
  refine single _ ?_ (fun _ h => h.compileJumpTable source t) ?_
  · exact foldl_appendJump_offsets _ _ _ _
  · exact (le_foldl_max (jumpSizeFor dfa s source) t.destinations .int8).2

theorem compileNodeTransitions (s : State) (node : DFANode) :
    Emits dfa source s (s.compileNodeTransitions dfa source node) (transitionCode node) := by
  unfold State.compileNodeTransitions transitionCode
  refine ((foldl compileJumpTable s _).trans (foldl compileCheckForRange _ _)).trans ?_
  have hlast : (transitions node).fallbackTransitionTarget = fallback node := rfl
  simp only [lastCode, hlast]
  cases fallback node with
  | none => exact emitTerminate _
  | some target => exact emitJump _ target

theorem foldl_emitAppendAction (s : State) (l : List Nat) :
    Emits dfa source s (l.foldl State.emitAppendAction s) (l.map .action) :=
  foldl emitAppendAction s l

end Emits

/-! ## Whole nodes -/

def actionsLength (node : DFANode) : Nat := (node.actions.flatMap actionBytes).length

theorem foldl_emitAppendAction_length (s : State) (l : List Nat) :
    (l.foldl State.emitAppendAction s).bytecode.length =
      s.bytecode.length + (l.flatMap actionBytes).length := by
  induction l generalizing s with
  | nil => rfl
  | cons a l ih =>
    rw [List.foldl_cons, ih, List.flatMap_cons, List.length_append]
    simp only [State.emitAppendAction, State.append, List.length_append]
    omega

theorem Lays.mem_slots {location : Nat} {codes : List Code} (h : Lays location codes ps)
    {r : LinkRecord} (hr : r ∈ Piece.slots ps) :
    (∃ code ∈ codes, r.destinationNodeIndex ∈ code.targets) ∧ location ≤ r.instructionLocation ∧
      r.instructionLocation < location + (Piece.fill blank ps).length := by
  induction h with
  | nil location => simp [Piece.slots] at hr
  | @cons location code rest ps size _ ih =>
    rw [Piece.slots_append] at hr
    rw [Piece.fill_append, List.length_append, length_fill_pieces length_blank]
    have hpos : 0 < code.length size := by
      cases code with
      | action a =>
        simp only [Code.length, actionBytes]
        split_ifs <;> simp
      | range r =>
        simp only [Code.length]
        split_ifs <;> omega
      | _ => simp only [Code.length]; omega
    rcases List.mem_append.1 hr with hr | hr
    · obtain ⟨-, hlocation, htarget⟩ := slots_pieces hr
      exact ⟨⟨code, List.mem_cons_self, htarget⟩, by omega, by omega⟩
    · obtain ⟨⟨c, hc, htarget⟩, hlow, hhigh⟩ := ih hr
      exact ⟨⟨c, List.mem_cons_of_mem _ hc, htarget⟩, by omega, by omega⟩

/-- What `compileNode` does for a node that was not killed. -/
theorem compileNode_spec {dfa : DFA} {s : State} {index : Nat} {node : DFANode} (root : Bool)
    (hnode : dfa.nodes[index]? = some node) (hlive : node.isKilled = false) :
    (s.compileNode dfa index root).nodeStartOffsets = (fun i => if i = index then
      some (if root then s.bytecode.length + actionsLength node else s.bytecode.length)
      else s.nodeStartOffsets i) ∧
    ∀ ps, Emitted s ps → ∃ qs, Emitted (s.compileNode dfa index root) (ps ++ qs) ∧
      Lays s.bytecode.length (nodeCode node) qs ∧ ∀ r ∈ Piece.slots qs,
        Chosen dfa (s.compileNode dfa index root).nodeStartOffsets index r := by
  have hactions : Emits dfa index s _ _ := Emits.foldl_emitAppendAction s node.actions
  have hlength := foldl_emitAppendAction_length s node.actions
  have htransitions : ∀ v : State,
      Emits dfa index v (v.compileNodeTransitions dfa index node) (transitionCode node) :=
    fun v => Emits.compileNodeTransitions v node
  simp only [State.compileNode, hnode, hlive, Bool.false_eq_true, if_false, hlength]
  generalize node.actions.foldl State.emitAppendAction s = u at hactions
  refine ⟨?_, fun ps hps => ?_⟩
  · rw [(htransitions _).offsets, State.setNodeStartOffset, hactions.offsets, actionsLength]
  obtain ⟨qs, hqs, hlays, -⟩ := hactions.pieces ps hps
  obtain ⟨rs, hrs, hlays', hchosen⟩ := (htransitions (u.setNodeStartOffset index _)).pieces
    (ps ++ qs) ⟨hqs.bytecode, hqs.linkRecords, hqs.placed⟩
  refine ⟨qs ++ rs, by rwa [← List.append_assoc], hlays.append ?_, fun r hr => ?_⟩
  · simp only [State.setNodeStartOffset, hqs.bytecode, Piece.fill_append, List.length_append,
      ← hps.bytecode] at hlays'
    exact hlays'
  · rw [Piece.slots_append] at hr
    rcases List.mem_append.1 hr with hr | hr
    · -- The actions have no jumps.
      obtain ⟨⟨code, hcode, htarget⟩, -, -⟩ := hlays.mem_slots hr
      obtain ⟨a, -, rfl⟩ := List.mem_map.1 hcode
      simp [Code.targets] at htarget
    · rw [(htransitions _).offsets]
      exact hchosen r hr

/-- The instructions of a node stand at the location, the bytes of the header included. -/
def Holds (ps : List (Piece LinkRecord)) (location : Nat) (codes : List Code) : Prop :=
  ∃ before qs after, ps = before ++ qs ++ after ∧
    location = 4 + (Piece.fill blank before).length ∧ Lays location codes qs

theorem Holds.append {location : Nat} {codes : List Code} (h : Holds ps location codes)
    (qs : List (Piece LinkRecord)) :
    Holds (ps ++ qs) location codes := by
  obtain ⟨before, rs, after, rfl, hlocation, hlays⟩ := h
  exact ⟨before, rs, after ++ qs, by simp, hlocation, hlays⟩

def header (length : Nat) : List (Piece LinkRecord) := (littleEndian 4 length).map .byte

/-- Each node that has a start offset has its instructions there; those of the root start with its
actions, right after the header. -/
structure EmitInv (dfa : DFA) (s : State) (ps : List (Piece LinkRecord)) : Prop where
  emitted : Emitted s (header 0 ++ ps)
  nodes : ∀ i offset, s.nodeStartOffsets i = some offset → ∃ node, dfa.nodes[i]? = some node ∧
    node.isKilled = false ∧
    if i = dfa.root then Holds ps 4 (nodeCode node) ∧ offset = 4 + actionsLength node
    else Holds ps offset (nodeCode node)

namespace EmitInv

variable {dfa : DFA} {s : State} {ps : List (Piece LinkRecord)}

theorem length (inv : EmitInv dfa s ps) : s.bytecode.length = 4 + (Piece.fill blank ps).length := by
  rw [inv.emitted.bytecode, Piece.fill_append, header, Piece.fill_map_byte, List.length_append,
    length_littleEndian]

theorem compileNode (inv : EmitInv dfa s ps) (index : Nat) (root : Bool)
    (hroot : root = true ↔ index = dfa.root) (hstart : root = true → ps = []) :
    ∃ qs, EmitInv dfa (s.compileNode dfa index root) (ps ++ qs) := by
  cases hnode : dfa.nodes[index]? with
  | none => exact ⟨[], by simpa [State.compileNode, hnode] using inv⟩
  | some node =>
    cases hkilled : node.isKilled with
    | true => exact ⟨[], by simpa [State.compileNode, hnode, hkilled] using inv⟩
    | false =>
      obtain ⟨hoffsets, hpieces⟩ := compileNode_spec (s := s) root hnode hkilled
      obtain ⟨qs, hqs, hlays, -⟩ := hpieces _ inv.emitted
      refine ⟨qs, by rwa [← List.append_assoc], fun i offset hi => ?_⟩
      rw [hoffsets] at hi
      have hlength := inv.length
      have hholds : Holds (ps ++ qs) s.bytecode.length (nodeCode node) :=
        ⟨ps, qs, [], by simp, hlength, hlays⟩
      by_cases hindex : i = index
      · subst hindex
        simp only [if_true, Option.some.injEq] at hi
        subst hi
        refine ⟨node, hnode, hkilled, ?_⟩
        by_cases hr : root = true
        · have hfour : s.bytecode.length = 4 := by simp [hlength, hstart hr, Piece.fill]
          rw [if_pos (hroot.1 hr), if_pos hr]
          rw [hfour] at hholds ⊢
          exact ⟨hholds, rfl⟩
        · rw [if_neg fun h => hr (hroot.2 h), if_neg hr]
          exact hholds
      · simp only [hindex, if_false] at hi
        obtain ⟨node', hnode', hlive', hat⟩ := inv.nodes i offset hi
        refine ⟨node', hnode', hlive', ?_⟩
        split_ifs at hat ⊢
        · exact ⟨hat.1.append qs, hat.2⟩
        · exact hat.append qs

theorem compileNodes (inv : EmitInv dfa s ps) {l : List Nat} (hl : dfa.root ∉ l) :
    ∃ qs, EmitInv dfa (l.foldl (fun s i => s.compileNode dfa i false) s) qs := by
  induction l generalizing s ps with
  | nil => exact ⟨ps, inv⟩
  | cons i l ih =>
    rw [List.mem_cons, not_or] at hl
    obtain ⟨qs, hqs⟩ := inv.compileNode i false (by simpa using Ne.symm hl.1) (by simp)
    exact ih hqs hl.2

theorem emitNodes (dfa : DFA) : ∃ ps, EmitInv dfa (emitNodes dfa) ps := by
  have hinit : EmitInv dfa ⟨littleEndian 4 0, fun _ => none, []⟩ [] := by
    refine ⟨⟨?_, ?_, ?_⟩, by simp⟩
    · simp [header, Piece.fill_map_byte]
    · simp [header, Piece.slots_map_byte]
    · simpa [header] using Piece.placed_map_byte _ _ _ _
  obtain ⟨qs, hqs⟩ := hinit.compileNode dfa.root true (by simp) (by simp)
  exact hqs.compileNodes (by simp)

end EmitInv

theorem compileNode_offset_ne_none {dfa : DFA} {s : State} {index i : Nat} (root : Bool)
    (h : s.nodeStartOffsets i ≠ none) :
    (s.compileNode dfa index root).nodeStartOffsets i ≠ none := by
  cases hnode : dfa.nodes[index]? with
  | none => simpa [State.compileNode, hnode] using h
  | some node =>
    cases hkilled : node.isKilled with
    | true => simpa [State.compileNode, hnode, hkilled] using h
    | false =>
      rw [(compileNode_spec root hnode hkilled).1]
      by_cases hi : i = index <;> simp [hi, h]

theorem compileNodes_offset_ne_none {dfa : DFA} {s : State} {i : Nat} {l : List Nat}
    (h : s.nodeStartOffsets i ≠ none ∨ dfa.Live i ∧ i ∈ l) :
    (l.foldl (fun s i => s.compileNode dfa i false) s).nodeStartOffsets i ≠ none := by
  induction l generalizing s with
  | nil => simpa using h
  | cons index l ih =>
    refine ih ?_
    rcases h with h | ⟨hlive, hmem⟩
    · exact .inl (compileNode_offset_ne_none false h)
    · rcases List.mem_cons.1 hmem with rfl | hmem
      · obtain ⟨node, hnode, hkilled⟩ := hlive
        left
        rw [(compileNode_spec false hnode hkilled).1]
        simp
      · exact .inr ⟨hlive, hmem⟩

/-- Every live node has a start offset. -/
theorem emitNodes_offset_ne_none {dfa : DFA} {i : Nat} (hlive : dfa.Live i) :
    (emitNodes dfa).nodeStartOffsets i ≠ none := by
  refine compileNodes_offset_ne_none ?_
  obtain ⟨node, hnode, hkilled⟩ := hlive
  by_cases hroot : i = dfa.root
  · subst hroot
    left
    rw [(compileNode_spec true hnode hkilled).1]
    simp
  · refine .inr ⟨⟨node, hnode, hkilled⟩, ?_⟩
    have := (List.getElem?_eq_some_iff.1 hnode).1
    simp [hroot, this]

/-! ## Linking -/

/-- The distance from the instruction to its destination, in 32 bits. -/
def distance (offsets : Nat → Option Nat) (r : LinkRecord) : Int :=
  Int.bmod ((offsets r.destinationNodeIndex).getD 0 - r.instructionLocation) (2 ^ 32)

def content (offsets : Nat → Option Nat) (r : LinkRecord) : List Nat :=
  encodeDistance r.jumpSize (distance offsets r)

theorem length_content (offsets : Nat → Option Nat) (r : LinkRecord) :
    (content offsets r).length = r.jumpSize.inBytes := by simp [content, encodeDistance]

/-- The `RELEASE_ASSERT`s about the record hold. -/
structure Linked (offsets : Nat → Option Nat) (r : LinkRecord) : Prop where
  destination : ∃ offset, offsets r.destinationNodeIndex = some offset ∧ offset < 2 ^ 31 - 1
  fits : r.jumpSize.Fits (distance offsets r)

theorem link_eq_some {offsets : Nat → Option Nat} {bytecode linked : List Nat} {r : LinkRecord}
    (h : link offsets bytecode r = some linked) :
    Linked offsets r ∧ linked = overwrite bytecode r.jumpLocation (content offsets r) := by
  unfold link at h
  split at h
  · simp at h
  · next offset hoffset =>
    simp only at h
    split_ifs at h with hlt hfits
    cases h
    have hdistance : distance offsets r =
        Int.bmod (offset - r.instructionLocation) (2 ^ 32) := by simp [distance, hoffset]
    refine ⟨⟨⟨offset, hoffset, hlt⟩, ?_⟩, ?_⟩
    · rw [hdistance]
      exact hfits.1
    · rw [content, hdistance]

theorem foldlM_link_eq_some {offsets : Nat → Option Nat} {l : List LinkRecord}
    {bytecode linked : List Nat} (h : l.foldlM (link offsets) bytecode = some linked) :
    (∀ r ∈ l, Linked offsets r) ∧
      linked = l.foldl (fun b r => overwrite b r.jumpLocation (content offsets r)) bytecode := by
  induction l generalizing bytecode with
  | nil =>
    cases h
    simp
  | cons r l ih =>
    rw [List.foldlM_cons] at h
    obtain ⟨b, hb, hrest⟩ := Option.bind_eq_some_iff.1 h
    obtain ⟨hr, rfl⟩ := link_eq_some hb
    obtain ⟨hl, hlinked⟩ := ih hrest
    exact ⟨List.forall_mem_cons.2 ⟨hr, hl⟩, hlinked⟩

/-- The compiled bytecode is the header and the pieces with their distances. -/
theorem compile_eq_some {dfa : DFA} {bytecode : List Nat} (h : compile dfa = some bytecode) :
    ∃ ps, EmitInv dfa (emitNodes dfa) ps ∧
      (∀ r ∈ Piece.slots ps, Linked (emitNodes dfa).nodeStartOffsets r) ∧
      bytecode = littleEndian 4 bytecode.length ++
        Piece.fill (content (emitNodes dfa).nodeStartOffsets) ps ∧ bytecode.length < 2 ^ 32 := by
  obtain ⟨ps, inv⟩ := EmitInv.emitNodes dfa
  unfold compile at h
  simp only at h
  split_ifs at h with hlength
  obtain ⟨linked, hlinked, hbytecode⟩ := Option.bind_eq_some_iff.1 h
  obtain ⟨hrecords, hfold⟩ := foldlM_link_eq_some hlinked
  have hslots : Piece.slots (header 0 ++ ps) = Piece.slots ps := by
    rw [Piece.slots_append, header, Piece.slots_map_byte, List.nil_append]
  have hfill := foldl_overwrite length_blank (length_content (emitNodes dfa).nodeStartOffsets) [] []
    (header 0 ++ ps) inv.emitted.placed
  simp only [List.nil_append, List.append_nil, ← inv.emitted.bytecode,
    ← inv.emitted.linkRecords, ← hfold] at hfill
  rw [Piece.fill_append, header, Piece.fill_map_byte] at hfill
  have hwritten : bytecode = littleEndian 4 linked.length ++
      Piece.fill (content (emitNodes dfa).nodeStartOffsets) ps := by
    have hover := overwrite_append [] (littleEndian 4 0) (littleEndian 4 linked.length)
      (Piece.fill (content (emitNodes dfa).nodeStartOffsets) ps) (by simp)
    simp only [List.nil_append, List.length_nil, ← hfill] at hover
    rw [← hover]
    exact (Option.some.inj hbytecode).symm
  have hsame : bytecode.length = linked.length := by
    rw [hwritten, hfill, List.length_append, List.length_append, length_littleEndian,
      length_littleEndian]
  have htotal : linked.length = (emitNodes dfa).bytecode.length := by
    rw [inv.length, hfill, List.length_append, length_littleEndian,
      Piece.length_fill (length_content _) length_blank]
  refine ⟨ps, inv, ?_, by rw [hsame]; exact hwritten, by omega⟩
  rwa [inv.emitted.linkRecords, hslots] at hrecords

end DFABytecodeCompiler

end Odyssey.ContentExtensions
