import Mathlib.Algebra.GroupWithZero.Nat
import Mathlib.Data.List.Perm.Basic
import Mathlib.Data.List.Perm.Subperm
import Mathlib.Data.List.Sigma

/-!
# Tries

A trie has a value at every node and children named by keys. `find` and `alter` follow a path of
keys, `along` lists the values on the part of a path that exists. When every value only holds items
that belong to its path, the items along a path are the items of the whole trie whose place is a
prefix of the path.
-/
namespace Odyssey.Lib

universe u v w

/-- A trie with a value at every node; the children are kept in an association list. -/
structure Trie (κ : Type u) (ν : Type v) where
  value : ν
  children : List (Σ _ : κ, Trie κ ν)

namespace Trie

variable {κ : Type u} {ν : Type v}

mutual

/-- The values of all nodes. -/
def values : Trie κ ν → List ν
  | ⟨value, children⟩ => value :: valuesOf children

/-- The values of all nodes below the given children. -/
def valuesOf : List (Σ _ : κ, Trie κ ν) → List ν
  | [] => []
  | ⟨_, t⟩ :: rest => t.values ++ valuesOf rest

end

mutual

/-- Change every value. -/
def mapValues {ν' : Type w} (f : ν → ν') : Trie κ ν → Trie κ ν'
  | ⟨value, children⟩ => ⟨f value, mapValuesOf f children⟩

/-- Change every value below the given children. -/
def mapValuesOf {ν' : Type w} (f : ν → ν') : List (Σ _ : κ, Trie κ ν) → List (Σ _ : κ, Trie κ ν')
  | [] => []
  | ⟨k, t⟩ :: rest => ⟨k, t.mapValues f⟩ :: mapValuesOf f rest

end

section

variable {ν' : Type w} (h : ν → ν')

mutual

theorem values_mapValues : ∀ t : Trie κ ν, (t.mapValues h).values = t.values.map h
  | ⟨value, children⟩ => by
    rw [mapValues, values, values, valuesOf_mapValuesOf children, List.map_cons]

theorem valuesOf_mapValuesOf : ∀ children : List (Σ _ : κ, Trie κ ν),
    valuesOf (mapValuesOf h children) = (valuesOf children).map h
  | [] => rfl
  | ⟨_, t⟩ :: rest => by
    rw [mapValuesOf, valuesOf, valuesOf, values_mapValues t, valuesOf_mapValuesOf rest,
      List.map_append]

end

variable {ν'' : Type w} (h' : ν' → ν'')

mutual

theorem mapValues_mapValues : ∀ t : Trie κ ν,
    (t.mapValues h).mapValues h' = t.mapValues fun v => h' (h v)
  | ⟨value, children⟩ => by
    rw [mapValues, mapValues, mapValues, mapValuesOf_mapValuesOf children]

theorem mapValuesOf_mapValuesOf : ∀ children : List (Σ _ : κ, Trie κ ν),
    mapValuesOf h' (mapValuesOf h children) = mapValuesOf (fun v => h' (h v)) children
  | [] => rfl
  | ⟨_, t⟩ :: rest => by
    rw [mapValuesOf, mapValuesOf, mapValuesOf, mapValues_mapValues t, mapValuesOf_mapValuesOf rest]

end

end

variable [DecidableEq κ]

def child (t : Trie κ ν) (k : κ) : Option (Trie κ ν) := t.children.dlookup k

def setChild (t : Trie κ ν) (k : κ) (c : Trie κ ν) : Trie κ ν :=
  ⟨t.value, t.children.kinsert k c⟩

/-- The value at the end of a path. -/
def find : Trie κ ν → List κ → Option ν
  | t, [] => some t.value
  | t, k :: path => (t.child k).bind fun c => c.find path

/-- Change the value at the end of a path, after creating the nodes that are missing. -/
def alter (create : ν) (f : ν → ν) : Trie κ ν → List κ → Trie κ ν
  | t, [] => ⟨f t.value, t.children⟩
  | t, k :: path => t.setChild k (alter create f ((t.child k).getD ⟨create, []⟩) path)

/-- The values along a path, as far as it exists. -/
def along : Trie κ ν → List κ → List ν
  | t, [] => [t.value]
  | t, k :: path => t.value :: ((t.child k).map fun c => c.along path).getD []

/-- Change the values along a path, as far as it exists. -/
def mapAlong (f : ν → ν) : Trie κ ν → List κ → Trie κ ν
  | t, [] => ⟨f t.value, t.children⟩
  | t, k :: path =>
    match t.child k with
    | none => ⟨f t.value, t.children⟩
    | some c => setChild ⟨f t.value, t.children⟩ k (c.mapAlong f path)

/-! ## Reading -/

omit [DecidableEq κ] in
theorem valuesOf_eq_flatMap (children : List (Σ _ : κ, Trie κ ν)) :
    valuesOf children = children.flatMap fun c => c.2.values := by
  induction children with
  | nil => rfl
  | cons c children ih => rw [valuesOf, ih, List.flatMap_cons]

omit [DecidableEq κ] in
theorem values_eq (t : Trie κ ν) :
    t.values = t.value :: t.children.flatMap fun c => c.2.values := by
  obtain ⟨value, children⟩ := t
  rw [values, valuesOf_eq_flatMap]

theorem child_setChild_self (t : Trie κ ν) (k : κ) (c : Trie κ ν) :
    (t.setChild k c).child k = some c :=
  List.dlookup_kinsert _

theorem child_setChild_of_ne (t : Trie κ ν) {k k' : κ} (h : k' ≠ k) (c : Trie κ ν) :
    (t.setChild k c).child k' = t.child k' :=
  List.dlookup_kinsert_ne h

theorem setChild_setChild (t : Trie κ ν) (k : κ) (c c' : Trie κ ν) :
    (t.setChild k c).setChild k c' = t.setChild k c' := by
  simp [setChild, List.kinsert_def]

theorem find_cons (t : Trie κ ν) (k : κ) (path : List κ) :
    t.find (k :: path) = (t.child k).bind fun c => c.find path := rfl

theorem find_alter_self (create : ν) (f : ν → ν) (path : List κ) (t : Trie κ ν) :
    (t.alter create f path).find path = some (f ((t.find path).getD create)) := by
  induction path generalizing t with
  | nil => rfl
  | cons k path ih =>
    rw [alter, find_cons, child_setChild_self, Option.bind_some, ih, find_cons]
    cases t.child k with
    | none => cases path <;> rfl
    | some c => rfl

variable {c : Trie κ ν} {path : List κ}

/-- Values at other paths stay, except that nodes on the way are created. -/
theorem find_alter_of_ne (create : ν) (f : ν → ν) {path' : List κ} (h : path' ≠ path)
    (t : Trie κ ν) :
    ((t.alter create f path).find path').getD create = (t.find path').getD create := by
  induction path generalizing t path' with
  | nil =>
    cases path' with
    | nil => exact absurd rfl h
    | cons k path' => rfl
  | cons k path ih =>
    cases path' with
    | nil => rfl
    | cons k' path' =>
      rw [alter, find_cons, find_cons]
      by_cases same : k' = k
      · subst same
        rw [child_setChild_self, Option.bind_some, ih fun eq => h (by rw [eq])]
        cases t.child k' with
        | none => cases path' <;> rfl
        | some c => rfl
      · rw [child_setChild_of_ne t same]

/-- Only the old value at the end of the path matters. -/
theorem alter_eq_alter_const (create : ν) (f : ν → ν) (path : List κ) (t : Trie κ ν) :
    t.alter create f path = t.alter create (fun _ => f ((t.find path).getD create)) path := by
  induction path generalizing t with
  | nil => rfl
  | cons k path ih =>
    rw [alter, alter, ih, find_cons]
    cases t.child k with
    | none => cases path <;> rfl
    | some c => rfl

theorem alter_alter (create : ν) (f f' : ν → ν) (path : List κ) (t : Trie κ ν) :
    (t.alter create f path).alter create f' path = t.alter create (fun v => f' (f v)) path := by
  induction path generalizing t with
  | nil => rfl
  | cons k path ih =>
    rw [alter, alter, alter, child_setChild_self, Option.getD_some, setChild_setChild, ih]

/-- Every node satisfies the predicate, which may depend on the path of the node. -/
def AllNodes (P : List κ → ν → Prop) (t : Trie κ ν) : Prop :=
  ∀ ⦃path v⦄, t.find path = some v → P path v

variable {P : List κ → ν → Prop} {t : Trie κ ν} {f : ν → ν}

theorem AllNodes.value (h : AllNodes P t) : P [] t.value := h rfl

theorem AllNodes.child (h : AllNodes P t) {k : κ} (hc : t.child k = some c) :
    AllNodes (fun path v => P (k :: path) v) c := by
  intro path v hv
  exact h (by rw [find_cons, hc]; exact hv)

theorem allNodes_of_children (hvalue : P [] t.value)
    (hchild : ∀ k c, t.child k = some c → AllNodes (fun path v => P (k :: path) v) c) :
    AllNodes P t := by
  intro path v hv
  cases path with
  | nil =>
    cases hv
    exact hvalue
  | cons k path =>
    rw [find_cons] at hv
    obtain ⟨c, hc, hv⟩ := Option.bind_eq_some_iff.mp hv
    exact hchild k c hc hv

theorem AllNodes.setChild (h : AllNodes P t) {k : κ}
    (hc : AllNodes (fun path v => P (k :: path) v) c) : AllNodes P (t.setChild k c) := by
  refine allNodes_of_children h.value fun k' c' hc' => ?_
  by_cases hk : k' = k
  · subst hk
    rw [child_setChild_self, Option.some.injEq] at hc'
    exact hc' ▸ hc
  · rw [child_setChild_of_ne _ hk] at hc'
    exact h.child hc'

theorem allNodes_leaf {v : ν} (h : P [] v) : AllNodes P (⟨v, []⟩ : Trie κ ν) :=
  allNodes_of_children h fun k c hc => (by cases hc)

theorem AllNodes.setValue (h : AllNodes P t) {v : ν} (hv : P [] v) :
    AllNodes P ⟨v, t.children⟩ :=
  allNodes_of_children hv fun _ _ hc => h.child hc

/-- An altered trie keeps a property of its nodes if the new nodes and the changed one have it. -/
theorem AllNodes.alter {create : ν} (h : AllNodes P t) (hcreate : ∀ path, P path create)
    (hf : ∀ v, P path v → P path (f v)) :
    AllNodes P (t.alter create f path) := by
  induction path generalizing t P with
  | nil => exact h.setValue (hf _ h.value)
  | cons k path ih =>
    refine h.setChild (ih ?_ (fun path => hcreate (k :: path)) hf)
    cases hc : t.child k with
    | none => exact allNodes_leaf (hcreate [k])
    | some c => exact h.child hc

theorem AllNodes.mapAlong (h : AllNodes P t) (hf : ∀ path v, P path v → P path (f v)) :
    AllNodes P (t.mapAlong f path) := by
  induction path generalizing t P with
  | nil => exact h.setValue (hf _ _ h.value)
  | cons k path ih =>
    rw [Trie.mapAlong]
    have hvalue : AllNodes P ⟨f t.value, t.children⟩ := h.setValue (hf _ _ h.value)
    split
    · exact hvalue
    · rename_i c hc
      exact hvalue.setChild (ih (h.child hc) fun path v => hf (k :: path) v)

/-! ## Unique keys -/

/-- No node has two children of the same name. -/
inductive Proper : Trie κ ν → Prop
  | mk {value : ν} {children : List (Σ _ : κ, Trie κ ν)} (nodup : children.NodupKeys)
      (proper : ∀ c ∈ children, Proper c.2) : Proper ⟨value, children⟩

omit [DecidableEq κ] in
theorem Proper.nodupKeys (h : Proper t) : t.children.NodupKeys := by
  obtain ⟨hnodup, -⟩ := h
  exact hnodup

omit [DecidableEq κ] in
theorem Proper.of_mem (h : Proper t) {c : Σ _ : κ, Trie κ ν} (hc : c ∈ t.children) :
    Proper c.2 := by
  obtain ⟨-, hproper⟩ := h
  exact hproper c hc

omit [DecidableEq κ] in
theorem proper_leaf (v : ν) : Proper (⟨v, []⟩ : Trie κ ν) :=
  .mk List.nodupKeys_nil (by simp)

omit [DecidableEq κ] in
theorem Proper.setValue (h : Proper t) (v : ν) : Proper ⟨v, t.children⟩ :=
  .mk h.nodupKeys fun _ => h.of_mem

theorem mem_children_of_child {k : κ} (hc : t.child k = some c) :
    ⟨k, c⟩ ∈ t.children :=
  List.of_mem_dlookup hc

theorem Proper.child (h : Proper t) {k : κ} (hc : t.child k = some c) :
    Proper c :=
  h.of_mem (mem_children_of_child hc)

theorem Proper.setChild (h : Proper t) {k : κ} (hc : Proper c) :
    Proper (t.setChild k c) := by
  refine .mk (List.kinsert_nodupKeys _ _ h.nodupKeys) fun c' hc' => ?_
  rw [List.kinsert_def, List.mem_cons] at hc'
  rcases hc' with rfl | hc'
  · exact hc
  · exact h.of_mem ((List.kerase_sublist _ _).subset hc')

theorem Proper.alter {create : ν} (h : Proper t) :
    Proper (t.alter create f path) := by
  induction path generalizing t with
  | nil => exact h.setValue _
  | cons k path ih =>
    refine h.setChild (ih ?_)
    cases hc : t.child k with
    | none => exact proper_leaf _
    | some c => exact h.child hc

theorem Proper.mapAlong (h : Proper t) : Proper (t.mapAlong f path) := by
  induction path generalizing t with
  | nil => exact h.setValue _
  | cons k path ih =>
    rw [Trie.mapAlong]
    split
    · exact h.setValue _
    · rename_i c hc
      exact (h.setValue _).setChild (ih (h.child hc))

/-! ## The items of a trie -/

section

variable {α : Type w}

/-- The items held by all nodes. -/
def items (g : ν → List α) (t : Trie κ ν) : List α := t.values.flatMap g

variable {g : ν → List α}

omit [DecidableEq κ] in
theorem items_eq (g : ν → List α) (t : Trie κ ν) :
    t.items g = g t.value ++ t.children.flatMap fun c => c.2.items g := by
  rw [items, values_eq, List.flatMap_cons, List.flatMap_assoc]
  rfl

omit [DecidableEq κ] in
theorem items_leaf (g : ν → List α) (v : ν) : items g (⟨v, []⟩ : Trie κ ν) = g v := by
  rw [items_eq, List.flatMap_nil, List.append_nil]

theorem children_perm {k : κ} {c : Trie κ ν} (hc : t.child k = some c) :
    t.children.Perm (⟨k, c⟩ :: t.children.kerase k) := by
  obtain ⟨b, l₁, l₂, hk, hchildren, herase⟩ := List.exists_of_kerase
    (List.dlookup_isSome.mp (by rw [show t.children.dlookup k = some c from hc]; rfl))
  have hb : b = c := by
    have hlookup : t.children.dlookup k = some b := by
      rw [hchildren, List.dlookup_append, List.dlookup_eq_none.mpr hk, Option.none_or,
        List.dlookup_cons_eq]
    exact Option.some.inj (hlookup.symm.trans hc)
  subst hb
  rw [herase]
  conv_lhs => rw [hchildren]
  exact List.perm_middle

/-- The items of the nodes that are not below the child of the given name. -/
def itemsBut (g : ν → List α) (t : Trie κ ν) (k : κ) : List α :=
  g t.value ++ (t.children.kerase k).flatMap fun c => c.2.items g

theorem items_setChild (g : ν → List α) (t : Trie κ ν) (k : κ) (c : Trie κ ν) :
    ((t.setChild k c).items g).Perm (c.items g ++ t.itemsBut g k) := by
  rw [items_eq, setChild, List.kinsert_def, List.flatMap_cons, itemsBut, ← List.append_assoc,
    ← List.append_assoc]
  exact List.perm_append_comm.append_right _

theorem items_perm_of_child {k : κ} {c : Trie κ ν} (hc : t.child k = some c) :
    (t.items g).Perm (c.items g ++ t.itemsBut g k) := by
  rw [items_eq]
  refine ((List.Perm.flatMap_right _ (children_perm hc)).append_left _).trans ?_
  rw [List.flatMap_cons, itemsBut, ← List.append_assoc, ← List.append_assoc]
  exact List.perm_append_comm.append_right _

theorem items_of_child_eq_none {k : κ} (hc : t.child k = none) :
    t.items g = t.itemsBut g k := by
  rw [items_eq, itemsBut, List.kerase_of_notMem_keys (List.dlookup_eq_none.mp hc)]

theorem find_leaf_getD (create : ν) (path : List κ) :
    (find ⟨create, []⟩ path).getD create = create := by
  cases path <;> rfl

/-- Altering a trie replaces the items of one node. -/
theorem items_alter {create : ν} (hcreate : g create = []) (path : List κ) (t : Trie κ ν) :
    ∃ rest, (t.items g).Perm (g ((t.find path).getD create) ++ rest) ∧
      ((t.alter create f path).items g).Perm (g (f ((t.find path).getD create)) ++ rest) := by
  induction path generalizing t with
  | nil =>
    refine ⟨t.children.flatMap fun c => c.2.items g, ?_, ?_⟩
    · rw [items_eq]
      rfl
    · rw [alter, items_eq]
      rfl
  | cons k path ih =>
    obtain ⟨rest, hrest, hrest'⟩ := ih ((t.child k).getD ⟨create, []⟩)
    have hfind : (t.find (k :: path)).getD create =
        (((t.child k).getD ⟨create, []⟩).find path).getD create := by
      rw [find_cons]
      cases t.child k with
      | none => exact (find_leaf_getD create path).symm
      | some c => rfl
    have hitems : (t.items g).Perm
        (((t.child k).getD ⟨create, []⟩).items g ++ t.itemsBut g k) := by
      cases hc : t.child k with
      | none =>
        rw [Option.getD_none, items_leaf, hcreate, items_of_child_eq_none hc, List.nil_append]
      | some c => exact items_perm_of_child hc
    rw [hfind]
    refine ⟨rest ++ t.itemsBut g k, ?_, ?_⟩
    · rw [← List.append_assoc]
      exact hitems.trans (hrest.append_right _)
    · rw [← List.append_assoc]
      exact (items_setChild g t k _).trans (hrest'.append_right _)

/-- A change along a path takes as many items of some kind away as it takes from the values along
the path. -/
theorem countP_items_mapAlong {q : α → Bool} {δ : ν → Nat}
    (h : ∀ v, (g (f v)).countP q + δ v = (g v).countP q) (path : List κ) (t : Trie κ ν) :
    ((t.mapAlong f path).items g).countP q + ((t.along path).map δ).sum =
      (t.items g).countP q := by
  have hvalue (t : Trie κ ν) :
      (items g ⟨f t.value, t.children⟩).countP q + δ t.value = (t.items g).countP q := by
    have := h t.value
    rw [items_eq, items_eq, List.countP_append, List.countP_append]
    dsimp only
    omega
  induction path generalizing t with
  | nil => simpa [mapAlong, along] using hvalue t
  | cons k path ih =>
    have hvalue := hvalue t
    rw [mapAlong, along]
    cases hc : t.child k with
    | none => simpa using hvalue
    | some c =>
      have hchild : child ⟨f t.value, t.children⟩ k = some c := hc
      have hnew := (items_setChild g ⟨f t.value, t.children⟩ k (c.mapAlong f path)).countP_eq q
      have hold := (items_perm_of_child (g := g) hchild).countP_eq q
      have hrest := ih c
      rw [List.countP_append] at hnew hold
      simp only [Option.map_some, Option.getD_some, List.map_cons, List.sum_cons]
      omega

omit [DecidableEq κ] in
theorem countP_items_mapValues {q : α → Bool} {δ : ν → Nat}
    (h : ∀ v, (g (f v)).countP q + δ v = (g v).countP q) (t : Trie κ ν) :
    ((t.mapValues f).items g).countP q + (t.values.map δ).sum = (t.items g).countP q := by
  rw [items, items, values_mapValues]
  induction t.values with
  | nil => rfl
  | cons v values ih =>
    have := h v
    simp only [List.map_cons, List.flatMap_cons, List.countP_append, List.sum_cons]
    omega

/-! ## The items along a path -/

theorem Proper.exists_find (h : Proper t) {v : ν} (hv : v ∈ t.values) :
    ∃ path, t.find path = some v := by
  induction h with
  | @mk value children nodup _ ih =>
    rw [values_eq, List.mem_cons, List.mem_flatMap] at hv
    rcases hv with rfl | ⟨c, hc, hv⟩
    · exact ⟨[], rfl⟩
    · obtain ⟨path, hpath⟩ := ih c hc hv
      refine ⟨c.1 :: path, ?_⟩
      have hchild : Trie.child ⟨value, children⟩ c.1 = some c.2 :=
        (List.mem_dlookup_iff nodup).mpr hc
      rw [find_cons, hchild]
      exact hpath

/-- Every item belongs to the path of its node, after the path `before`. -/
def Placed (g : ν → List α) (place : α → List κ) (before : List κ) (t : Trie κ ν) : Prop :=
  AllNodes (fun path v => ∀ a ∈ g v, place a = before ++ path) t

variable {place : α → List κ} {before : List κ}

theorem Placed.child (h : Placed g place before t) {k : κ} {c : Trie κ ν}
    (hc : t.child k = some c) : Placed g place (before ++ [k]) c := by
  intro path v hv a ha
  rw [List.append_assoc]
  exact AllNodes.child h hc hv a ha

theorem Placed.isPrefix (h : Placed g place before t) (hproper : Proper t) {a : α}
    (ha : a ∈ t.items g) : before <+: place a := by
  obtain ⟨v, hv, ha⟩ := List.mem_flatMap.mp ha
  obtain ⟨path, hpath⟩ := hproper.exists_find hv
  exact ⟨path, (h hpath a ha).symm⟩

/-- The items below a child that is not on the path do not belong to a part of the path. -/
theorem Placed.not_isPrefix_of_mem (h : Placed g place before t) (hproper : Proper t)
    {c : Σ _ : κ, Trie κ ν} (hc : c ∈ t.children) {path : List κ}
    (hpath : ∀ rest, path ≠ c.1 :: rest) {a : α} (ha : a ∈ c.2.items g) :
    ¬ place a <+: before ++ path := by
  intro hplace
  have hchild : t.child c.1 = some c.2 := (List.mem_dlookup_iff hproper.nodupKeys).mpr hc
  have hbefore := ((h.child hchild).isPrefix (hproper.of_mem hc) ha).trans hplace
  rw [List.prefix_append_right_inj] at hbefore
  obtain ⟨rest, hrest⟩ := hbefore
  exact hpath rest hrest.symm

omit [DecidableEq κ] in
theorem filter_flatMap_eq_nil {children : List (Σ _ : κ, Trie κ ν)} {q : α → Bool}
    (h : ∀ c ∈ children, ∀ a ∈ c.2.items g, q a = false) :
    (children.flatMap fun c => c.2.items g).filter q = [] := by
  rw [List.filter_eq_nil_iff]
  intro a ha
  obtain ⟨c, hc, ha⟩ := List.mem_flatMap.mp ha
  rw [h c hc a ha]
  exact Bool.false_ne_true

theorem Placed.filter_value (h : Placed g place before t) (path : List κ) :
    (g t.value).filter (fun a => decide (place a <+: before ++ path)) = g t.value := by
  refine List.filter_eq_self.mpr fun a ha => decide_eq_true ?_
  rw [AllNodes.value h a ha, List.append_nil]
  exact List.prefix_append _ _

/-- The items along a path are those whose place is a part of the path. -/
theorem along_perm (h : Placed g place before t) (hproper : Proper t) (path : List κ) :
    ((t.along path).flatMap g).Perm
      ((t.items g).filter fun a => decide (place a <+: before ++ path)) := by
  induction path generalizing t before with
  | nil =>
    rw [items_eq, List.filter_append, h.filter_value, filter_flatMap_eq_nil fun c hc a ha =>
      decide_eq_false (h.not_isPrefix_of_mem hproper hc (by simp) ha), List.append_nil]
    simp [along]
  | cons k path ih =>
    have hothers : ((t.children.kerase k).flatMap fun c => c.2.items g).filter
        (fun a => decide (place a <+: before ++ k :: path)) = [] := by
      refine filter_flatMap_eq_nil fun c hc a ha => decide_eq_false ?_
      refine h.not_isPrefix_of_mem hproper ((List.kerase_sublist _ _).subset hc) ?_ ha
      rintro rest hk
      cases hk
      exact List.notMem_keys_kerase _ hproper.nodupKeys (List.mem_keys_of_mem hc)
    have hbut : (t.itemsBut g k).filter (fun a => decide (place a <+: before ++ k :: path)) =
        g t.value := by
      rw [itemsBut, List.filter_append, h.filter_value, hothers, List.append_nil]
    rw [along, List.flatMap_cons]
    cases hc : t.child k with
    | none => rw [items_of_child_eq_none hc, hbut]; simp
    | some c =>
      refine List.Perm.trans ?_ ((items_perm_of_child hc).filter _).symm
      rw [List.filter_append, hbut]
      refine List.perm_append_comm.trans (List.Perm.append_right _ ?_)
      simpa using ih (h.child hc) (hproper.child hc)

end

/-! ## Changing every value -/

section

variable {ν' : Type w} (h : ν → ν')

omit [DecidableEq κ] in
theorem mapValuesOf_eq_map (children : List (Σ _ : κ, Trie κ ν)) :
    mapValuesOf h children = children.map fun c => ⟨c.1, c.2.mapValues h⟩ := by
  induction children with
  | nil => rfl
  | cons c children ih => rw [mapValuesOf, ih, List.map_cons]

omit [DecidableEq κ] in
theorem mapValues_eq (t : Trie κ ν) :
    t.mapValues h = ⟨h t.value, t.children.map fun c => ⟨c.1, c.2.mapValues h⟩⟩ := by
  obtain ⟨value, children⟩ := t
  rw [mapValues, mapValuesOf_eq_map]

omit [DecidableEq κ] in
theorem value_mapValues (t : Trie κ ν) : (t.mapValues h).value = h t.value := by
  rw [mapValues_eq]

theorem child_mapValues (t : Trie κ ν) (k : κ) :
    (t.mapValues h).child k = (t.child k).map (mapValues h) := by
  rw [mapValues_eq]
  exact List.dlookup_map₂ (f := fun _ => mapValues h) k

theorem setChild_mapValues (t : Trie κ ν) (k : κ) (c : Trie κ ν) :
    (t.mapValues h).setChild k (c.mapValues h) = (t.setChild k c).mapValues h := by
  rw [mapValues_eq h t, mapValues_eq h (t.setChild k c)]
  simp [setChild, List.kinsert_def, List.kerase, List.eraseP_map, Function.comp_def]

theorem find_mapValues (t : Trie κ ν) (path : List κ) :
    (t.mapValues h).find path = (t.find path).map h := by
  induction path generalizing t with
  | nil => rw [find, find, value_mapValues, Option.map_some]
  | cons k path ih =>
    rw [find_cons, find_cons, child_mapValues]
    cases t.child k with
    | none => rfl
    | some c => exact ih c

theorem along_mapValues (t : Trie κ ν) (path : List κ) :
    (t.mapValues h).along path = (t.along path).map h := by
  induction path generalizing t with
  | nil => rw [along, along, value_mapValues, List.map_singleton]
  | cons k path ih =>
    rw [along, along, value_mapValues, child_mapValues, List.map_cons]
    cases t.child k with
    | none => rfl
    | some c => exact congrArg (h t.value :: ·) (ih c)

omit [DecidableEq κ] in
theorem Proper.mapValues (hproper : Proper t) : Proper (t.mapValues h) := by
  induction hproper with
  | @mk value children nodup _ ih =>
    rw [mapValues_eq]
    refine .mk ?_ fun c hc => ?_
    · rw [List.NodupKeys, List.keys, List.map_map]
      exact nodup
    · obtain ⟨c', hc', rfl⟩ := List.mem_map.mp hc
      exact ih c' hc'

theorem AllNodes.mapValues {P' : List κ → ν' → Prop} (hnodes : AllNodes P t)
    (hP : ∀ path v, P path v → P' path (h v)) : AllNodes P' (t.mapValues h) := by
  intro path v hv
  rw [find_mapValues] at hv
  obtain ⟨v', hv', rfl⟩ := Option.map_eq_some_iff.mp hv
  exact hP path v' (hnodes hv')

variable {h} {f' : ν' → ν'}

omit [DecidableEq κ] in
theorem setValue_mapValues (hf : ∀ v, f' (h v) = h (f v)) (t : Trie κ ν) :
    (⟨f' (t.mapValues h).value, (t.mapValues h).children⟩ : Trie κ ν') =
      mapValues h ⟨f t.value, t.children⟩ := by
  rw [mapValues_eq, mapValues_eq, hf]

theorem alter_mapValues (create : ν) {path : List κ} (hf : ∀ v, f' (h v) = h (f v))
    (t : Trie κ ν) :
    (t.mapValues h).alter (h create) f' path = (t.alter create f path).mapValues h := by
  induction path generalizing t with
  | nil => exact setValue_mapValues hf t
  | cons k path ih =>
    rw [alter, alter, child_mapValues, ← setChild_mapValues, ← ih]
    cases t.child k with
    | none => rfl
    | some c => rfl

theorem mapAlong_mapValues {path : List κ} (hf : ∀ v, f' (h v) = h (f v)) (t : Trie κ ν) :
    (t.mapValues h).mapAlong f' path = (t.mapAlong f path).mapValues h := by
  induction path generalizing t with
  | nil => exact setValue_mapValues hf t
  | cons k path ih =>
    rw [mapAlong, mapAlong, child_mapValues, setValue_mapValues hf]
    cases t.child k with
    | none => rfl
    | some c =>
      rw [Option.map_some]
      dsimp only
      rw [ih, setChild_mapValues]

end

end Trie

end Odyssey.Lib
