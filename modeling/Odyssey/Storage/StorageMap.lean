import Mathlib.Data.Option.Basic
import Odyssey.Lib.OrderedMap
import Odyssey.WTF.Text

/-!
# The map of a web storage area

`StorageMap.cpp`. A map is shared by the storage objects that hold a reference to it and copied
before it is changed. Its keys and values are counted in `m_currentLength`, which is held against a
quota in bytes. The null string, the answer for an absent key, is `none`.
-/
namespace Odyssey.Storage

open WTF (Text)
open Lib (OrderedMap)

/-- `HashMap<String, String>`. -/
abbrev Items := OrderedMap (Prod.fst : Text × Text → Text)

/-- `HashMap::get`. -/
def Items.get (items : Items) (key : Text) : Option Text :=
  (items.find key).map Prod.snd

/-- `HashMap::add`, after which the value of an entry that is not new is assigned. -/
def Items.set (items : Items) (key value : Text) : Items :=
  (items.add (key, value)).replace (key, value)

/-- The lengths of all keys and values. -/
def Items.total (items : Items) : Nat :=
  (items.entries.map fun item => item.1.length + item.2.length).sum

/-- `String::length()`. -/
def length (s : Text) : UInt32 := s.length.toUInt32

/-- `String::length()` of a string that may be null. -/
def length? (s : Option Text) : UInt32 := (s.map length).getD 0

/-- `StorageMap::noQuota`. -/
def noQuota : UInt32 := 0xFFFFFFFF

/-- `UINT_MAX`, the index of an iterator at the end. -/
def noIndex : UInt32 := 0xFFFFFFFF

/-- A `StorageMap`. The iterator is the number of entries before it in the order of iteration. -/
structure StorageMap where
  refCount : Nat
  items : Items
  iterator : Nat
  iteratorIndex : UInt32
  quotaSize : UInt32
  currentLength : UInt32

namespace StorageMap

/-- `StorageMap::create`. -/
def create (quota : UInt32) : StorageMap where
  refCount := 1
  items := OrderedMap.empty
  iterator := 0
  iteratorIndex := noIndex
  quotaSize := quota
  currentLength := 0

def copy (m : StorageMap) : StorageMap :=
  { create m.quotaSize with
    items := m.items
    iterator := m.items.entries.length
    currentLength := m.currentLength }

def invalidateIterator (m : StorageMap) : StorageMap :=
  { m with iterator := m.items.entries.length, iteratorIndex := noIndex }

/-- The loop of `StorageMap::setIteratorToIndex`. -/
def advanceIterator (m : StorageMap) : Nat → StorageMap
  | 0 => m
  | steps + 1 =>
    let m := { m with iterator := m.iterator + 1, iteratorIndex := m.iteratorIndex + 1 }
    m.advanceIterator steps

def setIteratorToIndex (m : StorageMap) (index : UInt32) : StorageMap :=
  if m.iteratorIndex = index then m
  else
    let m := if index < m.iteratorIndex then { m with iterator := 0, iteratorIndex := 0 } else m
    m.advanceIterator (index - m.iteratorIndex).toNat

/-- `StorageMap::key`; the order of iteration of a hash map is a parameter. -/
def key (order : Items → List Text) (m : StorageMap) (index : UInt32) :
    StorageMap × Option Text :=
  if m.items.entries.length ≤ index.toNat then (m, none)
  else
    let m := m.setIteratorToIndex index
    (m, (order m.items)[m.iterator]?)

/-- What `setItem` and `removeItem` report through their reference parameters. -/
structure Report where
  oldValue : Option Text
  quotaException : Bool
  deriving DecidableEq

/-- The new length that `setItem` computes, and whether a step of it overflows. -/
def newLength (m : StorageMap) (key value : Text) : UInt32 × Bool :=
  let newLength := m.currentLength
  let overflow := decide (newLength + length value < newLength)
  let newLength := newLength + length value
  let oldValue := m.items.get key
  let overflow := overflow || decide (newLength - length? oldValue > newLength)
  let newLength := newLength - length? oldValue
  let adjustedKeyLength := if oldValue.isNone then length key else 0
  let overflow := overflow || decide (newLength + adjustedKeyLength < newLength)
  let newLength := newLength + adjustedKeyLength
  (newLength, overflow)

/-- `setItem` on a map with one reference. -/
def setOwnItem (m : StorageMap) (key value : Text) : StorageMap × Report :=
  let oldValue := m.items.get key
  let (newLength, overflow) := m.newLength key value
  let overQuota := decide (newLength > m.quotaSize / 2)
  if m.quotaSize ≠ noQuota ∧ (overflow || overQuota) then (m, ⟨oldValue, true⟩)
  else
    let m := { m with currentLength := newLength, items := m.items.set key value }
    (m.invalidateIterator, ⟨oldValue, false⟩)

/-- The map after a call, the map it returns, and what it reports. -/
structure Result where
  map : StorageMap
  returned : Option StorageMap := none
  report : Report := ⟨none, false⟩

/-- Copy-on-write: a call on a shared map is made on a copy, which is returned. -/
def copyOnWrite (m : StorageMap) (call : StorageMap → StorageMap × Report) : Result :=
  if 1 < m.refCount then
    let (newMap, report) := call m.copy
    { map := m, returned := some newMap, report := report }
  else
    let (map, report) := call m
    { map := map, report := report }

def setItem (m : StorageMap) (key value : Text) : Result :=
  m.copyOnWrite fun m => m.setOwnItem key value

/-- `StorageMap::setItemIgnoringQuota`; the quota of the map itself is put back at the end. -/
def setItemIgnoringQuota (m : StorageMap) (key value : Text) : Result :=
  let result := { m with quotaSize := noQuota }.setItem key value
  { map := { result.map with quotaSize := m.quotaSize }, returned := result.returned }

/-- `removeItem` on a map with one reference. -/
def removeOwnItem (m : StorageMap) (key : Text) : StorageMap × Report :=
  let oldValue := m.items.get key
  let m := { m with items := m.items.erase key }
  let m :=
    if oldValue.isSome then
      { m.invalidateIterator with currentLength := m.currentLength - length key }
    else m
  ({ m with currentLength := m.currentLength - length? oldValue }, ⟨oldValue, false⟩)

def removeItem (m : StorageMap) (key : Text) : Result :=
  m.copyOnWrite fun m => m.removeOwnItem key

/-- The body of the loop of `StorageMap::importItems`. -/
def importItem (m : StorageMap) (item : Text × Text) : StorageMap :=
  { m with
    items := m.items.add item
    currentLength := m.currentLength + length item.1 + length item.2 }

/-- `StorageMap::importItems`, in the order in which the given map is iterated. -/
def importItems (m : StorageMap) (items : Items) : StorageMap :=
  items.entries.foldl importItem m

end StorageMap

/-! ## Maps in use -/

/-- What the holders of a map do with it. -/
inductive Call where
  | setItem (key value : Text)
  | setItemIgnoringQuota (key value : Text)
  | removeItem (key : Text)
  | importItems (items : Items)
  | key (index : UInt32)
  | ref
  | deref

def StorageMap.call (order : Items → List Text) (m : StorageMap) : Call → StorageMap.Result
  | .setItem key value => m.setItem key value
  | .setItemIgnoringQuota key value => m.setItemIgnoringQuota key value
  | .removeItem key => m.removeItem key
  | .importItems items => { map := m.importItems items }
  | .key index => { map := (m.key order index).1 }
  | .ref => { map := { m with refCount := m.refCount + 1 } }
  | .deref => { map := { m with refCount := m.refCount - 1 } }

/-- The maps, and what the calls have reported. -/
abbrev State := List StorageMap × List StorageMap.Report

/-- A call on one of the maps that exist, which must have a reference left. A returned map is the
newest one. -/
def step (order : Items → List Text) (s : State) (next : Nat × Call) : Option State := do
  let m ← s.1[next.1]?
  guard (0 < m.refCount)
  let result := m.call order next.2
  some (s.1.set next.1 result.map ++ result.returned.toList, s.2 ++ [result.report])

end Odyssey.Storage
