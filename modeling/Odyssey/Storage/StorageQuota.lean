import Odyssey.Lib.Runs
import Odyssey.Storage.StorageMap

/-!
# The quota of a storage area

A storage area is meant to hold items whose total length never grows beyond the quota by `setItem`,
and a shared area is meant to be left alone by the calls that return a changed one. The maps of
`StorageMap.cpp` refine such areas as long as no call ignores the quota on a shared map: the copy
that is then returned has no quota any more.
-/
namespace Odyssey.Storage

open WTF (Text)
open Lib

namespace Items

variable {items : Items} {key : Text}

theorem total_add {item : Text × Text} (absent : items.find item.1 = none) :
    total (items.add item) = items.total + item.1.length + item.2.length := by
  rw [total, OrderedMap.entries_add absent]
  simp [total, Nat.add_assoc]

theorem get_eq_none : items.get key = none ↔ items.find key = none := by
  simp [get]

theorem total_set_of_get_none (value : Text) (absent : items.get key = none) :
    (items.set key value).total = items.total + key.length + value.length := by
  have absent := get_eq_none.mp absent
  have hadd := OrderedMap.entries_add (v := (key, value)) absent
  rw [set, total, OrderedMap.entries_replace hadd rfl]
  simp [total, Nat.add_assoc]

/-- The place of a value among the entries. -/
theorem exists_entries_of_get_some {old : Text} (found : items.get key = some old) :
    ∃ l₁ l₂, items.entries = l₁ ++ (key, old) :: l₂ := by
  obtain ⟨item, hitem, rfl⟩ := Option.map_eq_some_iff.mp found
  obtain ⟨mem, rfl⟩ := OrderedMap.find_eq_some.mp hitem
  exact List.append_of_mem mem

theorem total_set_of_get_some (value : Text) {old : Text} (found : items.get key = some old) :
    (items.set key value).total + old.length = items.total + value.length := by
  obtain ⟨l₁, l₂, hentries⟩ := exists_entries_of_get_some found
  obtain ⟨item, hitem, -⟩ := Option.map_eq_some_iff.mp found
  rw [set, OrderedMap.add_of_find_some (v := (key, value)) hitem, total, total,
    OrderedMap.entries_replace (w := (key, value)) hentries rfl, hentries]
  simp
  omega

theorem total_erase {old : Text} (found : items.get key = some old) :
    total (items.erase key) + key.length + old.length = items.total := by
  obtain ⟨l₁, l₂, hentries⟩ := exists_entries_of_get_some found
  rw [total, total, OrderedMap.entries_erase (v := (key, old)) hentries, hentries]
  simp
  omega

/-- The items of another map, added one by one. -/
def addAll (items : Items) (added : List (Text × Text)) : Items :=
  added.foldl (fun items item => items.add item) items

theorem total_le_addAll (items : Items) (added : List (Text × Text)) :
    items.total ≤ (items.addAll added).total := by
  induction added generalizing items with
  | nil => exact Nat.le_refl _
  | cons item added ih =>
    refine Nat.le_trans ?_ (ih (items.add item))
    cases found : items.find item.1 with
    | none =>
      rw [total_add found]
      omega
    | some other => exact Nat.le_of_eq (congrArg total (OrderedMap.add_of_find_some found).symm)

end Items

/-! ## Areas -/

/-- A storage area: what it holds, and how many hold it. -/
structure Area where
  refCount : Nat
  items : Items

namespace Area

/-- An area after a call, the area the call returns, and what it reports. -/
structure Result where
  area : Area
  returned : Option Area := none
  report : StorageMap.Report := ⟨none, false⟩

def empty : Area := ⟨1, OrderedMap.empty⟩

/-- A change of the items, made in the area itself only if nobody else holds it. -/
def change (a : Area) (items : Items) (report : StorageMap.Report) : Result :=
  if 1 < a.refCount then { area := a, returned := some ⟨1, items⟩, report := report }
  else { area := { a with items := items }, report := report }

/-- The calls on an area with a quota of so many bytes, two for each character. -/
def call (quota : UInt32) (a : Area) : Call → Result
  | .setItem key value =>
    if (a.items.set key value).total ≤ quota.toNat / 2 then
      a.change (a.items.set key value) ⟨a.items.get key, false⟩
    else a.change a.items ⟨a.items.get key, true⟩
  | .setItemIgnoringQuota key value => a.change (a.items.set key value) ⟨none, false⟩
  | .removeItem key => a.change (a.items.erase key) ⟨a.items.get key, false⟩
  | .importItems items => { area := { a with items := a.items.addAll items.entries } }
  | .key _ => { area := a }
  | .ref => { area := { a with refCount := a.refCount + 1 } }
  | .deref => { area := { a with refCount := a.refCount - 1 } }

def step (quota : UInt32) (s : List Area × List StorageMap.Report) (next : Nat × Call) :
    Option (List Area × List StorageMap.Report) := do
  let a ← s.1[next.1]?
  guard (0 < a.refCount)
  let result := a.call quota next.2
  some (s.1.set next.1 result.area ++ result.returned.toList, s.2 ++ [result.report])

end Area

/-! ## What is kept of a map -/

namespace StorageMap

def area (m : StorageMap) : Area := ⟨m.refCount, m.items⟩

/-- The map has its quota, and its items are counted. -/
structure Kept (quota : UInt32) (m : StorageMap) : Prop where
  quotaSize : m.quotaSize = quota
  currentLength : m.currentLength.toNat = m.items.total

/-- The maps of a result are kept, and it is the result of the area. -/
structure Result.Refines (quota : UInt32) (result : Result) (spec : Area.Result) : Prop where
  map : result.map.Kept quota
  returned : ∀ m ∈ result.returned, Kept quota m
  area_map : result.map.area = spec.area
  area_returned : result.returned.map area = spec.returned
  report : result.report = spec.report

variable {quota : UInt32} {m : StorageMap} {key value : Text}

theorem kept_create (quota : UInt32) : (create quota).Kept quota :=
  ⟨rfl, rfl⟩

theorem Kept.copy (kept : m.Kept quota) : m.copy.Kept quota :=
  ⟨kept.quotaSize, kept.currentLength⟩

theorem Kept.total_lt (kept : m.Kept quota) : m.items.total < 2 ^ 32 :=
  kept.currentLength ▸ m.currentLength.toNat_lt

theorem toNat_length {s : Text} (h : s.length < 2 ^ 32) : (length s).toNat = s.length := by
  simp only [length, UInt32.toNat_ofNat', Nat.toUInt32]
  exact Nat.mod_eq_of_lt h

/-- The new length is the total that the items would have, and the flag says that the sum with the
new value alone overflows. -/
theorem newLength_eq (kept : m.Kept quota) (small : (m.items.set key value).total < 2 ^ 32) :
    (m.newLength key value).1.toNat = (m.items.set key value).total ∧
      ((m.newLength key value).2 = true ↔ 2 ^ 32 ≤ m.items.total + value.length) := by
  have hlength := kept.currentLength
  have hlt := kept.total_lt
  cases hget : m.items.get key with
  | none =>
    have htotal := Items.total_set_of_get_none value hget
    have hkey := toNat_length (s := key) (by omega)
    have hvalue := toNat_length (s := value) (by omega)
    constructor
    · simp [newLength, hget, length?, hkey, hvalue, hlength]
      omega
    · simp [newLength, hget, length?, UInt32.lt_iff_toNat_lt, hkey, hvalue, hlength]
      omega
  | some old =>
    have htotal := Items.total_set_of_get_some value hget
    have herase := Items.total_erase hget
    have hold := toNat_length (s := old) (by omega)
    have hvalue := toNat_length (s := value) (by omega)
    constructor
    · simp [newLength, hget, length?, UInt32.toNat_sub, hold, hvalue, hlength]
      omega
    · simp [newLength, hget, length?, UInt32.lt_iff_toNat_lt, UInt32.toNat_sub, hold, hvalue,
        hlength]
      omega

/-- A call that keeps a map of the same items keeps the map, shared or not. -/
theorem refines_copyOnWrite {call : StorageMap → StorageMap × Report} {items : Items}
    {report : Report} (kept : m.Kept quota)
    (hcall : ∀ n : StorageMap, n.Kept quota → n.items = m.items →
      (call n).1.Kept quota ∧ (call n).1.area = ⟨n.refCount, items⟩ ∧ (call n).2 = report) :
    (m.copyOnWrite call).Refines quota (m.area.change items report) := by
  by_cases shared : 1 < m.refCount
  · obtain ⟨hkept, harea, hreport⟩ := hcall m.copy kept.copy rfl
    rw [copyOnWrite, if_pos shared, Area.change, if_pos (show 1 < m.area.refCount from shared)]
    exact ⟨kept, by simpa using hkept, rfl, congrArg some harea, hreport⟩
  · obtain ⟨hkept, harea, hreport⟩ := hcall m kept rfl
    rw [copyOnWrite, if_neg shared, Area.change, if_neg (show ¬ 1 < m.area.refCount from shared)]
    exact ⟨hkept, by simp, harea, rfl, hreport⟩

/-! ## Calls without the defect -/

/-- Whether the sums of `setItem` tell if the item fits. Without a quota nothing is refused; with
one, an item is refused when the old items and the new value overflow together. -/
def SetItemSafe (quota : UInt32) (m : StorageMap) (key value : Text) : Prop :=
  if quota = noQuota then (m.items.set key value).total ≤ quota.toNat / 2
  else m.items.total + value.length < 2 ^ 32 ∨ quota.toNat / 2 < (m.items.set key value).total

theorem setOwnItem_refuses (kept : m.Kept quota)
    (small : (m.items.set key value).total < 2 ^ 32) (safe : SetItemSafe quota m key value) :
    (m.quotaSize ≠ noQuota ∧ ((m.newLength key value).2 ||
      decide ((m.newLength key value).1 > m.quotaSize / 2)) = true) ↔
    ¬ (m.items.set key value).total ≤ quota.toNat / 2 := by
  obtain ⟨hlength, hoverflow⟩ := newLength_eq kept small
  rw [kept.quotaSize, Bool.or_eq_true, hoverflow, decide_eq_true_iff, gt_iff_lt,
    UInt32.lt_iff_toNat_lt, hlength]
  rw [SetItemSafe] at safe
  have half : (quota / 2).toNat = quota.toNat / 2 := by simp
  rw [half]
  split_ifs at safe with unlimited
  · simp [unlimited] at safe ⊢
    omega
  · simp only [unlimited, ne_eq, not_false_iff, true_and]
    omega

theorem Kept.setOwnItem (kept : m.Kept quota) (small : (m.items.set key value).total < 2 ^ 32)
    (safe : SetItemSafe quota m key value) :
    (m.setOwnItem key value).1.Kept quota ∧
    if (m.items.set key value).total ≤ quota.toNat / 2 then
      (m.setOwnItem key value).1.area = ⟨m.refCount, m.items.set key value⟩ ∧
        (m.setOwnItem key value).2 = ⟨m.items.get key, false⟩
    else m.setOwnItem key value = (m, ⟨m.items.get key, true⟩) := by
  have hrefuses := setOwnItem_refuses kept small safe
  have hlength := (newLength_eq kept small).1
  obtain ⟨newLength, overflow, hnew⟩ : ∃ newLength overflow,
    m.newLength key value = (newLength, overflow) := ⟨_, _, rfl⟩
  rw [hnew] at hrefuses hlength
  simp only [StorageMap.setOwnItem, hnew]
  by_cases fits : (m.items.set key value).total ≤ quota.toNat / 2
  · rw [if_neg (fun h => hrefuses.mp h fits), if_pos fits]
    exact ⟨⟨kept.quotaSize, hlength⟩, rfl, rfl⟩
  · rw [if_pos (hrefuses.mpr fits), if_neg fits]
    exact ⟨kept, rfl⟩

theorem refines_setItem (kept : m.Kept quota) (small : (m.items.set key value).total < 2 ^ 32)
    (safe : SetItemSafe quota m key value) (order : Items → List Text) :
    (m.call order (.setItem key value)).Refines quota
      (m.area.call quota (.setItem key value)) := by
  have hset : ∀ n : StorageMap, n.Kept quota → n.items = m.items → _ := fun n hn hitems =>
    have safe : n.SetItemSafe quota key value := by
      rw [SetItemSafe, hitems]
      exact safe
    hn.setOwnItem (hitems ▸ small) safe
  rw [call, setItem, Area.call]
  by_cases fits : (m.items.set key value).total ≤ quota.toNat / 2
  · rw [if_pos (show (m.area.items.set key value).total ≤ _ from fits)]
    refine refines_copyOnWrite kept fun n hn hitems => ?_
    have hset := hset n hn hitems
    rw [hitems, if_pos fits] at hset
    exact ⟨hset.1, hset.2⟩
  · rw [if_neg (show ¬ (m.area.items.set key value).total ≤ _ from fits)]
    refine refines_copyOnWrite kept fun n hn hitems => ?_
    have hset := hset n hn hitems
    rw [hitems, if_neg fits] at hset
    exact ⟨hset.1, by rw [hset.2, area, hitems]; rfl, by rw [hset.2]; rfl⟩

/-- Without a quota an item is stored, and the length is counted modulo its range. -/
theorem setOwnItem_noQuota (kept : m.Kept noQuota)
    (small : (m.items.set key value).total < 2 ^ 32) :
    (m.setOwnItem key value).1.Kept noQuota ∧
      (m.setOwnItem key value).1.area = ⟨m.refCount, m.items.set key value⟩ := by
  have hlength := (newLength_eq kept small).1
  obtain ⟨newLength, overflow, hnew⟩ : ∃ newLength overflow,
    m.newLength key value = (newLength, overflow) := ⟨_, _, rfl⟩
  rw [hnew] at hlength
  simp only [StorageMap.setOwnItem, hnew, kept.quotaSize, ne_eq, not_true_eq_false, false_and,
    if_false]
  exact ⟨⟨rfl, hlength⟩, rfl⟩

theorem refines_setItemIgnoringQuota (kept : m.Kept quota)
    (small : (m.items.set key value).total < 2 ^ 32)
    (safe : quota = noQuota ∨ ¬ 1 < m.refCount) (order : Items → List Text) :
    (m.call order (.setItemIgnoringQuota key value)).Refines quota
      (m.area.call quota (.setItemIgnoringQuota key value)) := by
  have hunlimited : { m with quotaSize := noQuota }.Kept noQuota := ⟨rfl, kept.currentLength⟩
  change Result.Refines quota
    { map := { (copyOnWrite _ _).map with quotaSize := m.quotaSize }
      returned := (copyOnWrite _ _).returned } _
  rw [Area.call]
  by_cases shared : 1 < m.refCount
  · obtain rfl : quota = noQuota := safe.resolve_right (absurd shared)
    obtain ⟨hkept, harea⟩ := setOwnItem_noQuota hunlimited.copy small
    rw [copyOnWrite, if_pos shared, Area.change, if_pos (show 1 < m.area.refCount from shared)]
    exact ⟨⟨kept.quotaSize, kept.currentLength⟩, by simpa using hkept, rfl, congrArg some harea,
      rfl⟩
  · obtain ⟨hkept, harea⟩ := setOwnItem_noQuota hunlimited small
    rw [copyOnWrite, if_neg shared, Area.change, if_neg (show ¬ 1 < m.area.refCount from shared)]
    exact ⟨⟨kept.quotaSize, hkept.currentLength⟩, by simp, harea, rfl, rfl⟩

theorem Kept.removeOwnItem (kept : m.Kept quota) (key : Text) :
    (m.removeOwnItem key).1.Kept quota ∧
      (m.removeOwnItem key).1.area = ⟨m.refCount, m.items.erase key⟩ ∧
      (m.removeOwnItem key).2 = ⟨m.items.get key, false⟩ := by
  have hlt := kept.total_lt
  have hlength := kept.currentLength
  cases hget : m.items.get key with
  | none =>
    have herase := OrderedMap.erase_of_find_none (Items.get_eq_none.mp hget)
    refine ⟨⟨?_, ?_⟩, ?_, ?_⟩
    · simpa [StorageMap.removeOwnItem, hget] using kept.quotaSize
    · simpa [StorageMap.removeOwnItem, hget, length?, herase] using hlength
    · simp [StorageMap.removeOwnItem, hget, area]
    · simp [StorageMap.removeOwnItem, hget]
  | some old =>
    have herase := Items.total_erase hget
    have hkey := toNat_length (s := key) (by omega)
    have hold := toNat_length (s := old) (by omega)
    refine ⟨⟨?_, ?_⟩, ?_, ?_⟩
    · simpa [StorageMap.removeOwnItem, hget, invalidateIterator] using kept.quotaSize
    · simp [StorageMap.removeOwnItem, hget, length?, invalidateIterator, UInt32.toNat_sub, hkey,
        hold, hlength]
      omega
    · simp [StorageMap.removeOwnItem, hget, area, invalidateIterator]
    · simp [StorageMap.removeOwnItem, hget]

/-- The loop of `importItems`, for items that are new one after the other. -/
theorem Kept.importItems (added : List (Text × Text)) (kept : m.Kept quota)
    (nodup : (added.map Prod.fst).Nodup) (absent : ∀ item ∈ added, m.items.find item.1 = none)
    (small : (m.items.addAll added).total < 2 ^ 32) :
    (added.foldl importItem m).Kept quota ∧
      (added.foldl importItem m).area = ⟨m.refCount, m.items.addAll added⟩ := by
  induction added generalizing m with
  | nil => exact ⟨kept, rfl⟩
  | cons item added ih =>
    rw [List.map_cons, List.nodup_cons] at nodup
    have hadd := OrderedMap.find_add (absent item (by simp))
    have htotal := Items.total_add (absent item (by simp))
    have hle := Items.total_le_addAll (m.items.add item) added
    rw [Items.addAll, List.foldl_cons, ← Items.addAll] at small
    refine ih (m := m.importItem item) ⟨kept.quotaSize, ?_⟩ nodup.2 ?_ small
    · have hkey := toNat_length (s := item.1) (by omega)
      have hvalue := toNat_length (s := item.2) (by omega)
      have hlength := kept.currentLength
      change (m.currentLength + length item.1 + length item.2).toNat =
        Items.total (m.items.add item)
      rw [htotal]
      simp [hkey, hvalue, hlength]
      omega
    · intro other mem
      change OrderedMap.find (m.items.add item) other.1 = none
      have hne : other.1 ≠ item.1 := fun same =>
        nodup.1 (same ▸ List.mem_map_of_mem mem)
      rw [hadd, Function.update_of_ne hne]
      exact absent other (by simp [mem])

/-- `key` moves the iterator and nothing else. -/
theorem advanceIterator_frame (steps : Nat) :
    (m.advanceIterator steps).area = m.area ∧
      (m.advanceIterator steps).quotaSize = m.quotaSize ∧
      (m.advanceIterator steps).currentLength = m.currentLength := by
  induction steps generalizing m with
  | zero => exact ⟨rfl, rfl, rfl⟩
  | succ steps ih => exact ih

theorem key_frame (order : Items → List Text) (index : UInt32) :
    (m.key order index).1.area = m.area ∧ (m.key order index).1.quotaSize = m.quotaSize ∧
      (m.key order index).1.currentLength = m.currentLength := by
  rw [StorageMap.key]
  split_ifs
  · exact ⟨rfl, rfl, rfl⟩
  · change (m.setIteratorToIndex index).area = _ ∧ (m.setIteratorToIndex index).quotaSize = _ ∧
      (m.setIteratorToIndex index).currentLength = _
    rw [setIteratorToIndex]
    split_ifs
    · exact ⟨rfl, rfl, rfl⟩
    · exact advanceIterator_frame _
    · exact advanceIterator_frame _

end StorageMap

/-! ## Runs -/

/-- The calls of the contract: totals stay below `2 ^ 32`, and only absent keys are imported. -/
def Call.InDomain (m : StorageMap) : Call → Prop
  | .setItem k value => (m.items.set k value).total < 2 ^ 32
  | .setItemIgnoringQuota k value => (m.items.set k value).total < 2 ^ 32
  | .importItems items =>
    (∀ item ∈ items.entries, m.items.find item.1 = none) ∧
      (m.items.addAll items.entries).total < 2 ^ 32
  | _ => True

/-- The calls that do not meet a defect: the quota is not ignored on a shared map, and the sums of
`setItem` tell if the item fits. -/
def Call.Safe (quota : UInt32) (m : StorageMap) : Call → Prop
  | .setItem k value => m.SetItemSafe quota k value
  | .setItemIgnoringQuota _ _ => quota = noQuota ∨ ¬ 1 < m.refCount
  | _ => True

/-- The calls that are made on a copy of a shared map. -/
def Call.copies : Call → Bool
  | .setItem _ _ | .setItemIgnoringQuota _ _ | .removeItem _ => true
  | _ => false

/-- The condition holds of the map that a call is made on. -/
def OnMap (condition : StorageMap → Call → Prop) (s : State) (next : Nat × Call) : Prop :=
  ∀ m ∈ s.1[next.1]?, condition m next.2

namespace StorageMap

variable {quota : UInt32} {m : StorageMap}

theorem refines_call {call : Call} (kept : m.Kept quota) (domain : call.InDomain m)
    (safe : call.Safe quota m) (order : Items → List Text) :
    (m.call order call).Refines quota (m.area.call quota call) := by
  cases call with
  | setItem key value => exact refines_setItem kept domain safe order
  | setItemIgnoringQuota key value =>
    exact refines_setItemIgnoringQuota kept domain safe order
  | removeItem key =>
    rw [StorageMap.call, removeItem, Area.call]
    refine refines_copyOnWrite kept fun n hn hitems => ?_
    have hremove := hn.removeOwnItem key
    rw [hitems] at hremove
    exact hremove
  | importItems items =>
    obtain ⟨hkept, harea⟩ := kept.importItems items.entries items.nodup domain.1 domain.2
    exact ⟨hkept, by simp [call], harea, rfl, rfl⟩
  | key index =>
    obtain ⟨harea, hquota, hlength⟩ := key_frame (m := m) order index
    refine ⟨⟨hquota.trans kept.quotaSize, ?_⟩, by simp [call], harea, rfl, rfl⟩
    have hitems : (m.key order index).1.items = m.items := congrArg Area.items harea
    change (m.key order index).1.currentLength.toNat = (m.key order index).1.items.total
    rw [hlength, hitems, kept.currentLength]
  | ref => exact ⟨⟨kept.quotaSize, kept.currentLength⟩, by simp [call], rfl, rfl, rfl⟩
  | deref => exact ⟨⟨kept.quotaSize, kept.currentLength⟩, by simp [call], rfl, rfl, rfl⟩

/-- A call that copies on write leaves a shared map as it is. -/
theorem map_copyOnWrite {call : StorageMap → StorageMap × Report} (shared : 1 < m.refCount) :
    (m.copyOnWrite call).map = m := by
  rw [copyOnWrite, if_pos shared]

theorem map_call_of_shared {call : Call} (shared : 1 < m.refCount) (copies : call.copies)
    (order : Items → List Text) : (m.call order call).map = m := by
  cases call with
  | setItem key value => exact map_copyOnWrite shared
  | setItemIgnoringQuota key value =>
    rw [StorageMap.call, setItemIgnoringQuota, setItem]
    rw [map_copyOnWrite (m := { m with quotaSize := noQuota }) shared]
  | removeItem key => exact map_copyOnWrite shared
  | _ => exact absurd copies (by simp [Call.copies])

end StorageMap

/-- The areas of the maps. -/
def areas (s : State) : List Area × List StorageMap.Report :=
  (s.1.map StorageMap.area, s.2)

theorem step_refines {quota : UInt32} {order : Items → List Text} {s : State} {next : Nat × Call}
    (kept : ∀ m ∈ s.1, m.Kept quota)
    (ok : OnMap (fun m call => call.InDomain m) s next ∧
      OnMap (fun m call => call.Safe quota m) s next) :
    (step order s next).map areas = Area.step quota (areas s) next ∧
      ∀ s' ∈ step order s next, ∀ m ∈ s'.1, m.Kept quota := by
  obtain ⟨domain, safe⟩ := ok
  rw [step, Area.step, areas, List.getElem?_map]
  cases hm : s.1[next.1]? with
  | none => simp
  | some m =>
    have hrefines := StorageMap.refines_call (kept m (List.mem_of_getElem? hm)) (domain m hm)
      (safe m hm) order
    by_cases alive : 0 < m.refCount
    · have alive' : 0 < m.area.refCount := alive
      have hreturned : (m.call order next.2).returned.toList.map StorageMap.area =
          (m.area.call quota next.2).returned.toList := by
        rw [← hrefines.area_returned, Option.toList_map]
      simp only [Option.bind_eq_bind, Option.bind_some, guard, alive, alive', if_true,
        Option.map_some, Option.pure_def, areas, List.map_append, List.map_set, hrefines.area_map,
        hreturned, hrefines.report, true_and]
      rintro result ⟨⟩ n hn
      rcases List.mem_append.mp hn with hn | hn
      · rcases List.mem_or_eq_of_mem_set hn with hn | rfl
        · exact kept n hn
        · exact hrefines.map
      · exact hrefines.returned n (by simpa using hn)
    · have dead : ¬ 0 < m.area.refCount := alive
      simp [guard, alive, dead]

/-- The calls on a map with a quota and on the maps they return: they do to the items and report
what the calls on areas do, every map keeps its quota and counts its items, and a shared map is left
as it is by the calls that return another. -/
def EnforcesQuota (quota : UInt32) (order : Items → List Text) (calls : List (Nat × Call)) : Prop :=
  (Runs.run (step order) ([StorageMap.create quota], []) calls).map areas =
    Runs.run (Area.step quota) ([Area.empty], []) calls ∧
  (∀ s ∈ Runs.run (step order) ([StorageMap.create quota], []) calls, ∀ m ∈ s.1, m.Kept quota) ∧
  ∀ m : StorageMap, ∀ call : Call, 1 < m.refCount → call.copies → (m.call order call).map = m

theorem enforcesQuota (quota : UInt32) (order : Items → List Text) (calls : List (Nat × Call))
    (domain : Runs.Every (step order) (OnMap fun m call => call.InDomain m)
      ([StorageMap.create quota], []) calls)
    (safe : Runs.Every (step order) (OnMap fun m call => call.Safe quota m)
      ([StorageMap.create quota], []) calls) :
    EnforcesQuota quota order calls := by
  have hkept : ∀ m ∈ [StorageMap.create quota], m.Kept quota := by
    simpa using StorageMap.kept_create quota
  obtain ⟨hrun, hkept⟩ := Runs.map_run_of_every step_refines hkept (domain.and safe)
  exact ⟨hrun, hkept, fun m call shared copies => StorageMap.map_call_of_shared shared copies order⟩

/-- An item that ignores the quota, a copy with an item that fits, and one that does not. -/
def quotaCalls : List (Nat × Call) :=
  [(0, .setItemIgnoringQuota [0x61] [0x62]), (0, .ref), (0, .setItem [0x61] [0x63, 0x64]),
    (1, .setItem [0x65] [0x66])]

theorem enforcesQuota_quotaCalls : EnforcesQuota 8 (fun _ => []) quotaCalls := by
  refine enforcesQuota 8 (fun _ => []) quotaCalls ?_ ?_
  · refine .cons ?_ rfl (.cons ?_ rfl (.cons ?_ rfl (.cons ?_ rfl trivial)))
    all_goals rintro m ⟨⟩
    on_goal 2 => trivial
    all_goals
      change Items.total _ < 2 ^ 32
      decide
  · refine .cons ?_ rfl (.cons ?_ rfl (.cons ?_ rfl (.cons ?_ rfl trivial)))
    all_goals rintro m ⟨⟩
    · exact .inr (by decide)
    · trivial
    all_goals
      change StorageMap.SetItemSafe _ _ _ _
      rw [StorageMap.SetItemSafe]
      decide

/-- Two holders of an area for five characters, one of which ignores the quota. -/
def sharedCalls : List (Nat × Call) :=
  [(0, .ref), (0, .setItemIgnoringQuota [0x61] [0x62]),
    (1, .setItem [0x65] [0x66, 0x66, 0x66])]

/-- Ignoring the quota on a shared map returns one that has none: the last call stores an item that
makes six characters in an area for five. -/
theorem not_enforcesQuota_shared :
    ¬ ∀ quota order calls, Runs.Every (step order) (OnMap fun m call => call.InDomain m)
      ([StorageMap.create quota], []) calls → EnforcesQuota quota order calls := by
  intro h
  obtain ⟨hrun, -⟩ := h 10 (fun _ => []) sharedCalls (by
    refine .cons ?_ rfl (.cons ?_ rfl (.cons ?_ rfl trivial))
    all_goals rintro m ⟨⟩
    · trivial
    all_goals
      change Items.total _ < 2 ^ 32
      decide)
  have hreports := congrArg (Option.map Prod.snd) hrun
  revert hreports
  decide

end Odyssey.Storage
