import Mathlib.Logic.Function.Basic

/-!
# Finite maps as the clients of `WTF::HashMap` see them

`HashMap` is the abstract map behind `WTF::HashMap`, given by its lookup function. The clients
depend on the difference between `add`, which keeps an entry that is already there, and `set`,
which overwrites it.
-/
namespace Odyssey.WTF

/-- The observable content of a `WTF::HashMap`: the value stored under each key, if any. -/
@[ext] structure HashMap (K V : Type*) where
  find : K → Option V

namespace HashMap

variable {K V : Type*}

def empty : HashMap K V := ⟨fun _ => none⟩

@[simp] theorem find_empty (k : K) : (empty : HashMap K V).find k = none := rfl

variable [DecidableEq K]

/-- `HashMap::set` overwrites. -/
def set (m : HashMap K V) (k : K) (v : V) : HashMap K V :=
  ⟨fun l => if l = k then some v else m.find l⟩

/-- `HashMap::add` leaves an existing entry alone. -/
def add (m : HashMap K V) (k : K) (v : V) : HashMap K V :=
  match m.find k with
  | none => m.set k v
  | some _ => m

def remove (m : HashMap K V) (k : K) : HashMap K V :=
  ⟨fun l => if l = k then none else m.find l⟩

@[simp] theorem find_set (m : HashMap K V) (k l : K) (v : V) :
    (m.set k v).find l = if l = k then some v else m.find l := rfl

@[simp] theorem find_remove (m : HashMap K V) (k l : K) :
    (m.remove k).find l = if l = k then none else m.find l := rfl

theorem add_of_find_none {m : HashMap K V} {k : K} (h : m.find k = none) (v : V) :
    m.add k v = m.set k v := by
  simp [add, h]

end HashMap

end Odyssey.WTF
