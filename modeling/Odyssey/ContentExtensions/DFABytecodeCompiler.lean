import Odyssey.ContentExtensions.DFA
import Odyssey.ContentExtensions.DFABytecode

/-!
# The bytecode compiler

`compile` writes the nodes one after the other, with blanks for the jump distances, and fills in
the distances when all nodes have their place. A failing `RELEASE_ASSERT` is `none`.
-/
namespace Odyssey.ContentExtensions

open Lib.Bytes (littleEndian overwrite)

/-- `toASCIILower`: sets the bit 0x20 of an upper-case letter. -/
def toASCIILower (c : Nat) : Nat := if 65 ≤ c ∧ c ≤ 90 then c + 32 else c

namespace DFABytecodeCompiler

structure Range where
  min : Nat
  max : Nat
  destination : Nat
  caseSensitive : Bool
deriving DecidableEq, Repr, Inhabited

structure JumpTable where
  min : Nat
  max : Nat
  caseSensitive : Bool
  destinations : List Nat
deriving DecidableEq, Repr

/-- `fallbackTransitionTarget` is there when `useFallbackTransition` is set. -/
structure Transitions where
  jumpTables : List JumpTable
  ranges : List Range
  fallbackTransitionTarget : Option Nat
deriving DecidableEq, Repr

/-! ## The transitions of a node -/

/-- The array `destinations`; `noDestination` is `none`. -/
abbrev Destinations := Nat → Option Nat

/-- The first loop of `transitions`: a transition to the fallback target is left out. -/
def fillDestinations (fallback : Option Nat) (destinations : Destinations) :
    List (CharRange × Nat) → Destinations
  | [] => destinations
  | (range, target) :: rest =>
    if fallback = some target then fillDestinations fallback destinations rest
    else fillDestinations fallback
      (fun i => if range.first ≤ i ∧ i ≤ range.last then some target else destinations i) rest

/-- The state of the second loop of `transitions`. -/
structure Scan where
  destinations : Destinations
  ranges : List Range
  rangeMin : Option Nat

/-- The range is one of upper-case letters and has the same destinations in lower case. -/
def FoldsCase (destinations : Destinations) (rangeMin rangeMax : Nat) : Prop :=
  65 ≤ rangeMin ∧ rangeMax ≤ 90 ∧
    ∀ i ∈ List.range' rangeMin (rangeMax + 1 - rangeMin),
      destinations rangeMin = destinations (toASCIILower i)

instance (destinations : Destinations) (rangeMin rangeMax : Nat) :
    Decidable (FoldsCase destinations rangeMin rangeMax) :=
  inferInstanceAs (Decidable (_ ∧ _ ∧ _))

/-- The end of a range: if it can be case insensitive, it also covers the lower-case letters,
which then need no range of their own. -/
def Scan.endRange (s : Scan) (rangeMin rangeMax : Nat) : Scan :=
  let destination := (s.destinations rangeMin).getD (2 ^ 32 - 1)
  if FoldsCase s.destinations rangeMin rangeMax then
    { s with
      destinations := fun i =>
        if toASCIILower rangeMin ≤ i ∧ i ≤ toASCIILower rangeMax then none else s.destinations i
      ranges := s.ranges ++
        [⟨toASCIILower rangeMin, toASCIILower rangeMax, destination, false⟩] }
  else { s with ranges := s.ranges ++ [⟨rangeMin, rangeMax, destination, true⟩] }

def Scan.step (s : Scan) (i : Nat) : Scan :=
  match s.rangeMin with
  | some rangeMin =>
    if s.destinations i ≠ s.destinations rangeMin then
      let s := s.endRange rangeMin (i - 1)
      { s with rangeMin := if s.destinations i = none then none else some i }
    else s
  | none => if s.destinations i ≠ none then { s with rangeMin := some i } else s

def computeRanges (destinations : Destinations) : List Range :=
  let s := (List.range 128).foldl Scan.step ⟨destinations, [], none⟩
  match s.rangeMin with
  | some rangeMin =>
    s.ranges ++ [⟨rangeMin, 127, (s.destinations rangeMin).getD (2 ^ 32 - 1), true⟩]
  | none => s.ranges

/-- The state of the third loop of `transitions`. -/
structure Extraction where
  jumpTables : List JumpTable
  ranges : List Range
  rangePosition : Nat
  baseRangePosition : Option Nat

/-- `extractJumpTable`: the ranges from `first` to `last` become a table. -/
def Extraction.extractJumpTable (s : Extraction) (first last : Nat) : Extraction :=
  { s with
    jumpTables := s.jumpTables ++ [{
      min := (s.ranges.getD first default).min
      max := (s.ranges.getD last default).max
      caseSensitive := (s.ranges.getD last default).caseSensitive
      destinations := ((s.ranges.drop first).take (last - first + 1)).map Range.destination }]
    ranges := s.ranges.take first ++ s.ranges.drop (last + 1) }

def Extraction.step (s : Extraction) : Extraction :=
  let range := s.ranges.getD s.rangePosition default
  match s.baseRangePosition with
  | some base =>
    if range.min ≠ range.max
        ∨ (s.ranges.getD base default).caseSensitive ≠ range.caseSensitive
        ∨ (s.ranges.getD (s.rangePosition - 1) default).max + 1 ≠ range.min then
      let s := if s.rangePosition - base > 1 then
          { s.extractJumpTable base (s.rangePosition - 1) with rangePosition := base }
        else s
      { s with baseRangePosition := none, rangePosition := s.rangePosition + 1 }
    else { s with rangePosition := s.rangePosition + 1 }
  | none =>
    { s with
      baseRangePosition := if range.min = range.max then some s.rangePosition else none
      rangePosition := s.rangePosition + 1 }

/-- The loop; each iteration leaves one range less to look at, so that the number of ranges is
enough fuel. -/
def Extraction.loop : Nat → Extraction → Extraction
  | 0, s => s
  | fuel + 1, s => if s.rangePosition < s.ranges.length then s.step.loop fuel else s

def extractJumpTables (ranges : List Range) : List JumpTable × List Range :=
  let s := Extraction.loop ranges.length ⟨[], ranges, 0, none⟩
  match s.baseRangePosition with
  | some base =>
    if s.ranges.length - base > 1 then
      let s := s.extractJumpTable base (s.ranges.length - 1)
      (s.jumpTables, s.ranges)
    else (s.jumpTables, s.ranges)
  | none => (s.jumpTables, s.ranges)

def transitions (node : DFANode) : Transitions :=
  let fallback :=
    if node.canUseFallbackTransition then some node.bestFallbackTarget else none
  let destinations := fillDestinations fallback (fun _ => none) node.transitions
  let extracted := extractJumpTables (computeRanges destinations)
  ⟨extracted.1, extracted.2, fallback⟩

/-! ## Worst-case sizes -/

def appendActionBytecodeSize (action : Nat) : Nat :=
  if actionFlags action ≠ 0 then 1 + 2 + 4 else 1 + 4

def checkForJumpTableMaxBytecodeSize (jumpTable : JumpTable) : Nat :=
  1 + 2 + (jumpTable.max - jumpTable.min + 1) * 4

def checkForRangeMaxBytecodeSize (range : Range) : Nat :=
  if range.min = range.max then 1 + 1 + 4 else 1 + 2 + 4

def nodeTransitionsMaxBytecodeSize (node : DFANode) : Nat :=
  let t := transitions node
  (t.jumpTables.map checkForJumpTableMaxBytecodeSize).sum +
    (t.ranges.map checkForRangeMaxBytecodeSize).sum +
    if t.fallbackTransitionTarget.isSome then 1 + 4 else 1

def actionsBytecodeSize (node : DFANode) : Nat := (node.actions.map appendActionBytecodeSize).sum

def compiledNodeMaxBytecodeSize (node : DFANode) : Nat :=
  if node.isKilled then 0 else actionsBytecodeSize node + nodeTransitionsMaxBytecodeSize node

/-- The sum of the sizes of the first `i` nodes, the root left out. -/
def sizeBefore (dfa : DFA) (i : Nat) : Nat :=
  ((List.range i).map fun j => if j = dfa.root then 0
    else ((dfa.nodes[j]?).map compiledNodeMaxBytecodeSize).getD 0).sum

/-- The entries of `m_maxNodeStartOffsets`: where the nodes would be without branch compaction. -/
def maxNodeStartOffset (dfa : DFA) (i : Nat) : Nat :=
  let size := fun (f : DFANode → Nat) => ((dfa.nodes[dfa.root]?).map f).getD 0
  if i = dfa.root then (4 + size actionsBytecodeSize) % 2 ^ 32
  else (4 + size compiledNodeMaxBytecodeSize + sizeBefore dfa i) % 2 ^ 32

/-! ## Writing instructions -/

structure LinkRecord where
  jumpSize : DFABytecodeJumpSize
  instructionLocation : Nat
  jumpLocation : Nat
  destinationNodeIndex : Nat
deriving DecidableEq, Repr

/-- The members of the compiler; a node without a start offset is not compiled yet. -/
structure State where
  bytecode : List Nat
  nodeStartOffsets : Nat → Option Nat
  linkRecords : List LinkRecord

def State.append (s : State) (bytes : List Nat) : State :=
  { s with bytecode := s.bytecode ++ bytes }

/-- A blank for the distance to the node, and the record to fill it in. -/
def State.appendJump (s : State) (size : DFABytecodeJumpSize)
    (instructionLocation destination : Nat) :
    State :=
  { s with
    bytecode := s.bytecode ++ List.replicate size.inBytes 0
    linkRecords := s.linkRecords ++ [⟨size, instructionLocation, s.bytecode.length, destination⟩] }

def State.setNodeStartOffset (s : State) (index offset : Nat) : State :=
  { s with nodeStartOffsets := fun i => if i = index then some offset else s.nodeStartOffsets i }

/-- The bytes of `emitAppendAction`. -/
def actionBytes (action : Nat) : List Nat :=
  if actionFlags action ≠ 0 then
    (if hasIfDomainFlag action then
      DFABytecodeInstruction.testFlagsAndAppendActionWithIfDomain
      else .testFlagsAndAppendAction).code ::
      (littleEndian 2 (actionFlags action) ++ littleEndian 4 (actionLocation action))
  else
    (if hasIfDomainFlag action then
      DFABytecodeInstruction.appendActionWithIfDomain
      else .appendAction).code :: littleEndian 4 (actionLocation action)

def State.emitAppendAction (s : State) (action : Nat) : State := s.append (actionBytes action)

section

variable (dfa : DFA)

/-- `longestPossibleJump`, with the wrap-around of its 32-bit arithmetic. -/
def longestPossibleJump (nodeStartOffsets : Nat → Option Nat)
    (instructionLocation source destination : Nat) : Int :=
  match nodeStartOffsets destination with
  | none => Int.bmod (maxNodeStartOffset dfa destination - maxNodeStartOffset dfa source -
      (((nodeStartOffsets source).getD (2 ^ 32 - 1) : Nat) - instructionLocation : Int)) (2 ^ 32)
  | some offset => Int.bmod (offset - instructionLocation) (2 ^ 32)

def jumpSizeFor (s : State) (source destination : Nat) : DFABytecodeJumpSize :=
  smallestPossibleJumpSize
    (longestPossibleJump dfa s.nodeStartOffsets s.bytecode.length source destination)

def State.emitJump (s : State) (source destination : Nat) : State :=
  let size := jumpSizeFor dfa s source destination
  (s.append [opcode .jump size]).appendJump size s.bytecode.length destination

def State.emitCheckValue (s : State) (value source destination : Nat) (caseSensitive : Bool) :
    State :=
  let size := jumpSizeFor dfa s source destination
  let instruction := if caseSensitive then
    DFABytecodeInstruction.checkValueCaseSensitive else .checkValueCaseInsensitive
  (s.append [opcode instruction size, value % 256]).appendJump size s.bytecode.length destination

def State.emitCheckValueRange (s : State) (lowValue highValue source destination : Nat)
    (caseSensitive : Bool) : State :=
  let size := jumpSizeFor dfa s source destination
  let instruction := if caseSensitive then
    DFABytecodeInstruction.checkValueRangeCaseSensitive else .checkValueRangeCaseInsensitive
  (s.append [opcode instruction size, lowValue % 256, highValue % 256]).appendJump size
    s.bytecode.length destination

def State.emitTerminate (s : State) : State := s.append [DFABytecodeInstruction.terminate.code]

def State.compileJumpTable (s : State) (source : Nat) (jumpTable : JumpTable) : State :=
  let size := jumpTable.destinations.foldl
    (fun size destination => size.max (jumpSizeFor dfa s source destination))
    DFABytecodeJumpSize.int8
  let instruction := if jumpTable.caseSensitive then
    DFABytecodeInstruction.jumpTableCaseSensitive else .jumpTableCaseInsensitive
  jumpTable.destinations.foldl
    (fun t destination => t.appendJump size s.bytecode.length destination)
    (s.append [opcode instruction size, jumpTable.min % 256, jumpTable.max % 256])

def State.compileCheckForRange (s : State) (source : Nat) (range : Range) : State :=
  if range.min = range.max then
    s.emitCheckValue dfa range.min source range.destination range.caseSensitive
  else
    s.emitCheckValueRange dfa range.min range.max source range.destination range.caseSensitive

def State.compileNodeTransitions (s : State) (source : Nat) (node : DFANode) : State :=
  let t := transitions node
  let s := t.jumpTables.foldl (fun s jumpTable => s.compileJumpTable dfa source jumpTable) s
  let s := t.ranges.foldl (fun s range => s.compileCheckForRange dfa source range) s
  match t.fallbackTransitionTarget with
  | some target => s.emitJump dfa source target
  | none => s.emitTerminate

/-- `compileNode`. The root starts after its actions: a jump to it does not add them again. -/
def State.compileNode (s : State) (index : Nat) (root : Bool) : State :=
  match dfa.nodes[index]? with
  | none => s
  | some node =>
    if node.isKilled then s
    else
      let start := s.bytecode.length
      let s := node.actions.foldl State.emitAppendAction s
      let offset := if root then s.bytecode.length else start
      (s.setNodeStartOffset index offset).compileNodeTransitions dfa index node

end

/-! ## Linking -/

/-- One turn of the link loop, with its `RELEASE_ASSERT`s. -/
def link (nodeStartOffsets : Nat → Option Nat) (bytecode : List Nat) (record : LinkRecord) :
    Option (List Nat) :=
  match nodeStartOffsets record.destinationNodeIndex with
  | none => none
  | some destination =>
    if destination < 2 ^ 31 - 1 then
      let distance := Int.bmod (destination - record.instructionLocation) (2 ^ 32)
      if record.jumpSize.Fits distance ∧
          record.jumpLocation + record.jumpSize.inBytes ≤ bytecode.length then
        some (overwrite bytecode record.jumpLocation (encodeDistance record.jumpSize distance))
      else none
    else none

/-- The state after all nodes have been written. A buffer of 2 ^ 32 bytes cannot be allocated. -/
def emitNodes (dfa : DFA) : State :=
  let s : State := ⟨littleEndian 4 0, fun _ => none, []⟩
  ((List.range dfa.nodes.length).filter (· ≠ dfa.root)).foldl
    (fun s i => s.compileNode dfa i false) (s.compileNode dfa dfa.root true)

/-- `compile`, into an empty vector. -/
def compile (dfa : DFA) : Option (List Nat) :=
  let s := emitNodes dfa
  if s.bytecode.length < 2 ^ 32 then do
    let bytecode ← s.linkRecords.foldlM (link s.nodeStartOffsets) s.bytecode
    some (overwrite bytecode 0 (littleEndian 4 bytecode.length))
  else none

end DFABytecodeCompiler

end Odyssey.ContentExtensions
