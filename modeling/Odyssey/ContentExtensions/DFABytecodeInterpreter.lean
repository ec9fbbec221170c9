import Mathlib.Data.Finset.Insert
import Odyssey.ContentExtensions.DFABytecodeCompiler

/-!
# The bytecode interpreter

`interpret` runs one automaton after the other over the URL. The loops carry fuel; a run that gives
`none` ran out of it or reached a `RELEASE_ASSERT_NOT_REACHED`. The set of actions of the pages'
domain, `m_domainActions`, is not set in a call of `interpret`.
-/
namespace Odyssey.ContentExtensions

open Lib.Bytes (readByte readLE)

namespace DFABytecodeInterpreter

/-- The character at the index; a C string ends with 0. -/
def charAt (url : List Nat) (urlIndex : Nat) : Nat := url.getD urlIndex 0

/-- The position in the bytecode and in the URL, and the actions found so far. -/
structure Machine where
  programCounter : Nat
  urlIndex : Nat
  urlIndexIsAfterEndOfString : Bool
  actions : Finset Nat

section

variable (bytecode : List Nat)

/-- `interpretAppendAction`. -/
def interpretAppendAction (programCounter : Nat) (actions : Finset Nat) (ifDomain : Bool) :
    Nat × Finset Nat :=
  (programCounter + 5,
    insert (makeAction ifDomain 0 (readLE bytecode 4 (programCounter + 1))) actions)

/-- `interpretTestFlagsAndAppendAction`. -/
def interpretTestFlagsAndAppendAction (flags programCounter : Nat) (actions : Finset Nat)
    (ifDomain : Bool) : Nat × Finset Nat :=
  let flagsToCheck := readLE bytecode 2 (programCounter + 1)
  (programCounter + 7,
    if flagsMatch flagsToCheck flags then
      insert (makeAction ifDomain flagsToCheck (readLE bytecode 4 (programCounter + 3))) actions
    else actions)

/-- `programCounter += distance`, in 32 bits. -/
def jumpBy (programCounter : Nat) (distance : Int) : Nat :=
  ((programCounter + distance) % 2 ^ 32).toNat

/-- Follow the edge whose distance stands at `jumpLocation`. -/
def Machine.followEdge (m : Machine) (character jumpLocation : Nat) (size : DFABytecodeJumpSize) :
    Machine :=
  { m with
    programCounter := jumpBy m.programCounter (getJumpDistance bytecode jumpLocation size)
    urlIndexIsAfterEndOfString := m.urlIndexIsAfterEndOfString || character = 0
    urlIndex := m.urlIndex + 1 }

/-- The two instructions `CheckValue`. -/
def Machine.checkValue (m : Machine) (character : Nat) : Option Machine :=
  (getJumpSize bytecode m.programCounter).map fun size =>
    if character = readByte bytecode (m.programCounter + 1) then
      m.followEdge bytecode character (m.programCounter + 2) size
    else { m with programCounter := m.programCounter + 2 + size.inBytes }

/-- The two instructions `CheckValueRange`. -/
def Machine.checkValueRange (m : Machine) (character : Nat) : Option Machine :=
  (getJumpSize bytecode m.programCounter).map fun size =>
    if readByte bytecode (m.programCounter + 1) ≤ character ∧
        character ≤ readByte bytecode (m.programCounter + 2) then
      m.followEdge bytecode character (m.programCounter + 3) size
    else { m with programCounter := m.programCounter + 3 + size.inBytes }

/-- `interpetJumpTable`. -/
def Machine.interpretJumpTable (m : Machine) (character : Nat) : Option Machine :=
  (getJumpSize bytecode m.programCounter).map fun size =>
    let firstCharacter := readByte bytecode (m.programCounter + 1)
    let lastCharacter := readByte bytecode (m.programCounter + 2)
    if firstCharacter ≤ character ∧ character ≤ lastCharacter then
      m.followEdge bytecode character
        (m.programCounter + 3 + (character - firstCharacter) * size.inBytes) size
    else { m with programCounter :=
      m.programCounter + 3 + size.inBytes * (lastCharacter - firstCharacter + 1) }

/-- `Jump`, taken when there is a character left. -/
def Machine.jump (m : Machine) (character : Nat) : Option Machine :=
  (getJumpSize bytecode m.programCounter).map fun size =>
    m.followEdge bytecode character (m.programCounter + 1) size

/-- What one turn of the loop does: it goes on, or it is done with this automaton. -/
inductive Outcome where
  | next (m : Machine)
  | nextDFA (actions : Finset Nat)

/-- An instruction that reads the next character, which is there unless the end was passed. -/
def Machine.reading (m : Machine) (next : Option Machine) : Option Outcome :=
  if m.urlIndexIsAfterEndOfString then some (.nextDFA m.actions) else next.map .next

def Machine.withActions (m : Machine) (result : Nat × Finset Nat) : Option Outcome :=
  some (.next { m with programCounter := result.1, actions := result.2 })

variable (url : List Nat) (flags : Nat)

/-- One turn of the inner loop of `interpret`. -/
def Machine.step (m : Machine) : Option Outcome :=
  let character := charAt url m.urlIndex
  match getInstruction bytecode m.programCounter with
  | some .terminate => some (.nextDFA m.actions)
  | some .checkValueCaseSensitive => m.reading (m.checkValue bytecode character)
  | some .checkValueCaseInsensitive => m.reading (m.checkValue bytecode (toASCIILower character))
  | some .jumpTableCaseInsensitive =>
    m.reading (m.interpretJumpTable bytecode (toASCIILower character))
  | some .jumpTableCaseSensitive => m.reading (m.interpretJumpTable bytecode character)
  | some .checkValueRangeCaseSensitive => m.reading (m.checkValueRange bytecode character)
  | some .checkValueRangeCaseInsensitive =>
    m.reading (m.checkValueRange bytecode (toASCIILower character))
  | some .jump =>
    if character = 0 then some (.nextDFA m.actions) else m.reading (m.jump bytecode character)
  | some .appendAction =>
    m.withActions (interpretAppendAction bytecode m.programCounter m.actions false)
  | some .appendActionWithIfDomain =>
    m.withActions (interpretAppendAction bytecode m.programCounter m.actions true)
  | some .testFlagsAndAppendAction =>
    m.withActions
      (interpretTestFlagsAndAppendAction bytecode flags m.programCounter m.actions false)
  | some .testFlagsAndAppendActionWithIfDomain =>
    m.withActions
      (interpretTestFlagsAndAppendAction bytecode flags m.programCounter m.actions true)
  | none => none

/-- The inner loop of `interpret`. -/
def Machine.run : Nat → Machine → Option (Finset Nat)
  | 0, _ => none
  | fuel + 1, m => do
    match ← m.step bytecode url flags with
    | .next m => m.run fuel
    | .nextDFA actions => some actions

/-- The loop over the actions of the root of the first automaton. Those without flags belong to
`actionsMatchingEverything`. -/
def skipRootActions (dfaBytecodeLength : Nat) : Nat → Nat → Finset Nat → Option (Nat × Finset Nat)
  | 0, _, _ => none
  | fuel + 1, programCounter, actions =>
    if programCounter < dfaBytecodeLength then
      match getInstruction bytecode programCounter with
      | some .appendAction => skipRootActions dfaBytecodeLength fuel (programCounter + 5) actions
      | some .appendActionWithIfDomain =>
        skipRootActions dfaBytecodeLength fuel (programCounter + 5) actions
      | some .testFlagsAndAppendAction =>
        let result := interpretTestFlagsAndAppendAction bytecode flags programCounter actions false
        skipRootActions dfaBytecodeLength fuel result.1 result.2
      | some .testFlagsAndAppendActionWithIfDomain =>
        let result := interpretTestFlagsAndAppendAction bytecode flags programCounter actions true
        skipRootActions dfaBytecodeLength fuel result.1 result.2
      | _ => some (programCounter, actions)
    else some (programCounter, actions)

/-- The outer loop of `interpret`, from the automaton at `dfaStart` on. -/
def interpretFrom : Nat → Nat → Finset Nat → Option (Finset Nat)
  | 0, _, _ => none
  | fuel + 1, dfaStart, actions =>
    if dfaStart < bytecode.length then do
      let dfaBytecodeLength := readLE bytecode 4 dfaStart
      let (programCounter, actions) ←
        if dfaStart = 0 then
          skipRootActions bytecode flags dfaBytecodeLength (fuel + 1) (dfaStart + 4) actions
        else some (dfaStart + 4, actions)
      if dfaStart = 0 ∧ bytecode.length ≤ programCounter then some actions
      else
        let actions ← Machine.run bytecode url flags (fuel + 1) ⟨programCounter, 0, false, actions⟩
        interpretFrom fuel (dfaStart + dfaBytecodeLength) actions
    else some actions

def interpret (fuel : Nat) : Option (Finset Nat) := interpretFrom bytecode url flags fuel 0 ∅

/-- The loop of `actionsMatchingEverything`. -/
def everythingLoop (dfaBytecodeLength : Nat) : Nat → Nat → Finset Nat → Option (Finset Nat)
  | 0, _, _ => none
  | fuel + 1, programCounter, actions =>
    if programCounter < dfaBytecodeLength then
      match getInstruction bytecode programCounter with
      | some .appendAction =>
        let result := interpretAppendAction bytecode programCounter actions false
        everythingLoop dfaBytecodeLength fuel result.1 result.2
      | some .appendActionWithIfDomain =>
        let result := interpretAppendAction bytecode programCounter actions true
        everythingLoop dfaBytecodeLength fuel result.1 result.2
      | some .testFlagsAndAppendAction =>
        everythingLoop dfaBytecodeLength fuel (programCounter + 7) actions
      | some .testFlagsAndAppendActionWithIfDomain =>
        everythingLoop dfaBytecodeLength fuel (programCounter + 7) actions
      | _ => some actions
    else some actions

def actionsMatchingEverything (fuel : Nat) : Option (Finset Nat) :=
  everythingLoop bytecode (readLE bytecode 4 0) fuel 4 ∅

end

end DFABytecodeInterpreter

end Odyssey.ContentExtensions
