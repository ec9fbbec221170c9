import Mathlib.Data.List.Nodup
import Mathlib.Logic.Function.Basic

/-!
# Insertion-ordered maps

A list of values with different keys, the oldest first.
-/
namespace Odyssey.Lib

/-- Values that carry their keys, in the order in which they were added. -/
structure OrderedMap {K V : Type} (key : V → K) where
  entries : List V
  nodup : (entries.map key).Nodup

namespace OrderedMap

variable {K V : Type} {key : V → K} {m : OrderedMap key} {k : K} {v : V}

@[ext] theorem ext {m m' : OrderedMap key} (eq : m.entries = m'.entries) : m = m' := by
  cases m
  cases m'
  cases eq
  rfl

def empty : OrderedMap key :=
  ⟨[], List.nodup_nil⟩

/-- The keys around the place of a value are different from its own. -/
theorem key_ne_of_entries {l₁ l₂ : List V} (eq : m.entries = l₁ ++ v :: l₂) :
    ∀ w ∈ l₁ ++ l₂, key w ≠ key v := by
  have nodup := m.nodup
  rw [eq, List.map_append, List.map_cons, List.nodup_middle, List.nodup_cons, ← List.map_append]
    at nodup
  exact fun w mem same => nodup.1 (same ▸ List.mem_map_of_mem mem)

variable [DecidableEq K]

def find (m : OrderedMap key) (k : K) : Option V :=
  m.entries.find? (key · = k)

/-- Adds a value at the end, unless its key has one. -/
def add (v : V) (m : OrderedMap key) : OrderedMap key :=
  if known : key v ∈ m.entries.map key then m
  else ⟨m.entries ++ [v], by
    rw [List.map_append, List.map_singleton]
    exact List.nodup_append'.mpr ⟨m.nodup, List.nodup_singleton _, by simpa using known⟩⟩

/-- Puts a value in the place of the one with its key. -/
def replace (v : V) (m : OrderedMap key) : OrderedMap key :=
  ⟨m.entries.map fun w => if key w = key v then v else w, by
    have same : (m.entries.map fun w => if key w = key v then v else w).map key =
        m.entries.map key := by
      rw [List.map_map]
      refine List.map_congr_left fun w _ => ?_
      by_cases eq : key w = key v <;> simp [eq]
    rw [same]
    exact m.nodup⟩

def erase (k : K) (m : OrderedMap key) : OrderedMap key :=
  ⟨m.entries.filter (key · ≠ k), m.nodup.sublist (List.filter_sublist.map key)⟩

@[simp] theorem find_empty (k : K) : (empty : OrderedMap key).find k = none :=
  rfl

theorem find_eq_none : m.find k = none ↔ ∀ v ∈ m.entries, key v ≠ k := by
  simp [find]

theorem find_eq_some : m.find k = some v ↔ v ∈ m.entries ∧ key v = k := by
  constructor
  · intro eq
    exact ⟨List.mem_of_find?_eq_some eq, by simpa using List.find?_some eq⟩
  · rintro ⟨mem, rfl⟩
    cases found : m.find (key v) with
    | none => exact absurd rfl (find_eq_none.mp found v mem)
    | some w =>
      have same : key w = key v := by simpa using List.find?_some found
      rw [List.inj_on_of_nodup_map m.nodup (List.mem_of_find?_eq_some found) mem same]

theorem entries_add (absent : m.find (key v) = none) : (m.add v).entries = m.entries ++ [v] := by
  rw [add, dif_neg]
  rintro mem
  obtain ⟨w, mem, same⟩ := List.mem_map.mp mem
  exact find_eq_none.mp absent w mem same

theorem find_add (absent : m.find (key v) = none) :
    (m.add v).find = Function.update m.find (key v) (some v) := by
  funext l
  rw [find, entries_add absent, List.find?_append, Function.update_apply]
  split_ifs with eq
  · rw [eq]
    have none : List.find? (fun w => decide (key w = key v)) m.entries = none := absent
    simp [none]
  · simp [find, Ne.symm eq]

theorem add_of_find_some {w : V} (found : m.find (key v) = some w) : m.add v = m := by
  obtain ⟨mem, same⟩ := find_eq_some.mp found
  exact dif_pos (same ▸ List.mem_map_of_mem mem)

theorem erase_of_find_none (absent : m.find k = none) : m.erase k = m := by
  refine ext (List.filter_eq_self.mpr fun v mem => ?_)
  exact decide_eq_true (find_eq_none.mp absent v mem)

theorem entries_replace {w : V} {l₁ l₂ : List V} (eq : m.entries = l₁ ++ v :: l₂)
    (same : key w = key v) : (m.replace w).entries = l₁ ++ w :: l₂ := by
  have keep : ∀ l : List V, (∀ u ∈ l, key u ≠ key v) →
      (l.map fun u => if key u = key w then w else u) = l := by
    intro l fresh
    rw [List.map_congr_left fun u mem => if_neg (same ▸ fresh u mem), List.map_id']
  have fresh := key_ne_of_entries eq
  change m.entries.map _ = _
  rw [eq, List.map_append, List.map_cons, if_pos same.symm,
    keep l₁ fun u mem => fresh u (List.mem_append_left _ mem),
    keep l₂ fun u mem => fresh u (List.mem_append_right _ mem)]

/-- Erasing the value `v` removes it from its place and nothing else. -/
theorem entries_erase {l₁ l₂ : List V} (eq : m.entries = l₁ ++ v :: l₂) :
    (m.erase (key v)).entries = l₁ ++ l₂ := by
  have fresh := key_ne_of_entries eq
  change m.entries.filter _ = _
  rw [eq, List.filter_append, List.filter_cons_of_neg (by simp), ← List.filter_append]
  exact List.filter_eq_self.mpr fun w mem => decide_eq_true (fresh w mem)

end OrderedMap

end Odyssey.Lib
