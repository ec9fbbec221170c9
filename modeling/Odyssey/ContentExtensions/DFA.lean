import Mathlib.Algebra.GroupWithZero.Nat
import Mathlib.Data.List.Basic
import Odyssey.WTF.HashMap

/-!
# Deterministic automata of the content extensions

A `DFA` reads the characters of a URL followed by the end marker 0. The source keeps the actions
and the transitions of all nodes in shared vectors, and each node an offset and a length into
them; here a node holds its own two lists.
-/
namespace Odyssey.ContentExtensions

open WTF (HashMap)

structure CharRange where
  first : Nat
  last : Nat
deriving DecidableEq, Repr

def CharRange.size (r : CharRange) : Nat := r.last - r.first + 1

def CharRange.Contains (r : CharRange) (c : Nat) : Prop := r.first ≤ c ∧ c ≤ r.last

instance (r : CharRange) (c : Nat) : Decidable (r.Contains c) :=
  inferInstanceAs (Decidable (_ ∧ _))

structure DFANode where
  actions : List Nat
  transitions : List (CharRange × Nat)
  isKilled : Bool
deriving DecidableEq, Repr

structure DFA where
  nodes : List DFANode
  root : Nat
deriving DecidableEq, Repr

/-! ## Fallback transitions -/

/-- The loop of `canUseFallbackTransition`: the ranges leave no gap up to 127. -/
def coversUpTo127 (lastSeenCharacter : Nat) : List (CharRange × Nat) → Bool
  | [] => false
  | (range, _) :: rest =>
    if range.first ≠ lastSeenCharacter + 1 then false
    else if range.last = 127 then true
    else coversUpTo127 range.last rest

def DFANode.canUseFallbackTransition (node : DFANode) : Bool :=
  match node.transitions with
  | [] => false
  | (range, target) :: rest =>
    if range.first = 0 then
      if range.last = 127 then true else coversUpTo127 range.last rest
    else coversUpTo127 0 ((range, target) :: rest)

/-- The loop of `bestFallbackTarget` after its first transition. -/
def bestTargetLoop (histogram : HashMap Nat Nat) (bestTarget bestTargetScore : Nat) :
    List (CharRange × Nat) → Nat
  | [] => bestTarget
  | (range, target) :: rest =>
    let value := match histogram.find target with
      | none => range.size
      | some old => old + range.size
    if value > bestTargetScore then bestTargetLoop (histogram.set target value) target value rest
    else bestTargetLoop (histogram.set target value) bestTarget bestTargetScore rest

def DFANode.bestFallbackTarget (node : DFANode) : Nat :=
  let transitions := match node.transitions with
    | (range, target) :: rest =>
      if range.first = 0 ∧ range.last = 0 then rest else (range, target) :: rest
    | [] => []
  match transitions with
  | [] => 0
  | (range, target) :: rest =>
    let bestTargetScore := if range.first = 0 then range.size - 1 else range.size
    bestTargetLoop (HashMap.empty.set target bestTargetScore) target bestTargetScore rest

/-! ## What a DFA does -/

/-- The target of the transition on the character `c`. -/
def DFANode.next (node : DFANode) (c : Nat) : Option Nat :=
  (node.transitions.find? fun t => decide (t.1.Contains c)).map Prod.snd

def DFA.next (dfa : DFA) (i c : Nat) : Option Nat := (dfa.nodes[i]?).bind (·.next c)

/-- The nodes visited when the characters are read from the node `i` on, with the transition
function `next`. -/
def visits (next : Nat → Nat → Option Nat) (i : Nat) : List Nat → List Nat
  | [] => [i]
  | c :: cs => i :: match next i c with
    | none => []
    | some j => visits next j cs

def DFA.actionsOf (dfa : DFA) (i : Nat) : List Nat := ((dfa.nodes[i]?).map DFANode.actions).getD []

/-! ## Well-formed automata -/

/-- The node `i` exists and was not killed. -/
def DFA.Live (dfa : DFA) (i : Nat) : Prop :=
  ∃ node, dfa.nodes[i]? = some node ∧ node.isKilled = false

/-- The ranges are sorted and disjoint, and the targets are live. -/
structure DFANode.HasTransitions (dfa : DFA) (node : DFANode) : Prop where
  ranges : ∀ t ∈ node.transitions, t.1.first ≤ t.1.last ∧ t.1.last ≤ 127
  sorted : node.transitions.Pairwise fun s t => s.1.last < t.1.first
  targets : ∀ t ∈ node.transitions, dfa.Live t.2

/-- The actions are as `compileRuleList` builds them: a location of 32 bits, 16 bits of flags and
the bit of `if-domain`. The length of the list of actions is a `uint16_t`. -/
structure DFANode.WellFormed (dfa : DFA) (node : DFANode) : Prop extends
    DFANode.HasTransitions dfa node where
  actions : ∀ a ∈ node.actions, a < 2 ^ 49
  actionsLength : node.actions.length < 2 ^ 16

structure DFA.WellFormed (dfa : DFA) : Prop where
  root : dfa.Live dfa.root
  nodes : ∀ (i : Nat) (node : DFANode), dfa.nodes[i]? = some node → node.isKilled = false →
    node.WellFormed dfa

namespace DFANode

variable {node : DFANode} {c i : Nat}

theorem mem_of_next (h : node.next c = some i) :
    ∃ t ∈ node.transitions, t.1.Contains c ∧ t.2 = i := by
  obtain ⟨t, ht, rfl⟩ := Option.map_eq_some_iff.1 h
  exact ⟨t, List.mem_of_find?_eq_some ht, by simpa using List.find?_some ht, rfl⟩

theorem find?_eq_of_sorted {l : List (CharRange × Nat)} {t : CharRange × Nat}
    (hsorted : l.Pairwise fun s t => s.1.last < t.1.first) (ht : t ∈ l) (hc : t.1.Contains c) :
    l.find? (fun t => decide (t.1.Contains c)) = some t := by
  induction l with
  | nil => simp at ht
  | cons a l ih =>
    obtain ⟨hfirst, hrest⟩ := List.pairwise_cons.1 hsorted
    rw [List.find?_cons]
    rcases List.mem_cons.1 ht with rfl | hmem
    · simp [hc]
    · have hlt := hfirst t hmem
      have hnot : ¬ a.1.Contains c := by
        unfold CharRange.Contains at *
        omega
      simp [hnot, ih hrest hmem]

/-- In sorted ranges a character has at most one transition. -/
theorem next_of_mem {dfa : DFA} (wf : node.HasTransitions dfa) {t : CharRange × Nat}
    (ht : t ∈ node.transitions) (hc : t.1.Contains c) : node.next c = some t.2 := by
  rw [next, find?_eq_of_sorted wf.sorted ht hc, Option.map_some]

theorem next_live {dfa : DFA} (wf : node.HasTransitions dfa) (h : node.next c = some i) :
    dfa.Live i := by
  obtain ⟨t, ht, -, rfl⟩ := mem_of_next h
  exact wf.targets t ht

/-! A node that can use a fallback transition has a transition on each character but 0. -/

theorem exists_of_coversUpTo127 {l : List (CharRange × Nat)} {lastSeen : Nat}
    (h : coversUpTo127 lastSeen l = true) (hlt : lastSeen < c) (hc : c ≤ 127) :
    ∃ t ∈ l, t.1.Contains c := by
  induction l generalizing lastSeen with
  | nil => simp [coversUpTo127] at h
  | cons a l ih =>
    obtain ⟨range, target⟩ := a
    rw [coversUpTo127] at h
    split_ifs at h with hfirst hlast
    · exact ⟨_, List.mem_cons_self, by simp only [CharRange.Contains]; omega⟩
    · by_cases hin : c ≤ range.last
      · exact ⟨_, List.mem_cons_self, by simp only [CharRange.Contains]; omega⟩
      · obtain ⟨t, ht, htc⟩ := ih h (by omega)
        exact ⟨t, List.mem_cons_of_mem _ ht, htc⟩

theorem exists_of_canUseFallbackTransition (h : node.canUseFallbackTransition = true)
    (hpos : 0 < c) (hc : c ≤ 127) : ∃ t ∈ node.transitions, t.1.Contains c := by
  unfold canUseFallbackTransition at h
  split at h
  · simp at h
  · next range target rest heq =>
    rw [heq]
    split_ifs at h with hzero hlast
    · exact ⟨_, List.mem_cons_self, by simp only [CharRange.Contains]; omega⟩
    · by_cases hin : c ≤ range.last
      · exact ⟨_, List.mem_cons_self, by simp only [CharRange.Contains]; omega⟩
      · obtain ⟨t, ht, htc⟩ := exists_of_coversUpTo127 h (by omega) hc
        exact ⟨t, List.mem_cons_of_mem _ ht, htc⟩
    · exact exists_of_coversUpTo127 h hpos hc

theorem bestTargetLoop_mem (histogram : HashMap Nat Nat) (best score : Nat)
    (l : List (CharRange × Nat)) :
    bestTargetLoop histogram best score l = best ∨
      ∃ t ∈ l, t.2 = bestTargetLoop histogram best score l := by
  induction l generalizing histogram best score with
  | nil => exact .inl rfl
  | cons a l ih =>
    obtain ⟨range, target⟩ := a
    rw [bestTargetLoop]
    split_ifs
    · rcases ih _ target _ with h | ⟨t, ht, h⟩
      · exact .inr ⟨_, List.mem_cons_self, h.symm⟩
      · exact .inr ⟨t, List.mem_cons_of_mem _ ht, h⟩
    · rcases ih _ best score with h | ⟨t, ht, h⟩
      · exact .inl h
      · exact .inr ⟨t, List.mem_cons_of_mem _ ht, h⟩

/-- The fallback target is the target of some transition. -/
theorem bestFallbackTarget_mem (h : node.canUseFallbackTransition = true) :
    ∃ t ∈ node.transitions, t.2 = node.bestFallbackTarget := by
  have hloop : ∀ (range : CharRange) (target : Nat) (rest : List (CharRange × Nat)),
      ∃ t ∈ (range, target) :: rest, t.2 =
        let score := if range.first = 0 then range.size - 1 else range.size
        bestTargetLoop (HashMap.empty.set target score) target score rest := by
    intro range target rest
    rcases bestTargetLoop_mem (HashMap.empty.set target _) target _ rest with h | ⟨t, ht, h⟩
    · exact ⟨_, List.mem_cons_self, h.symm⟩
    · exact ⟨t, List.mem_cons_of_mem _ ht, h⟩
  unfold canUseFallbackTransition at h
  unfold bestFallbackTarget
  cases hts : node.transitions with
  | nil => simp [hts] at h
  | cons a rest =>
    obtain ⟨range, target⟩ := a
    simp only [hts] at h ⊢
    by_cases hzero : range.first = 0 ∧ range.last = 0
    · -- The transition on the end marker alone is skipped; the remaining ones start at 1.
      rw [if_pos hzero]
      cases rest with
      | nil => simp [hzero, coversUpTo127] at h
      | cons b rest =>
        obtain ⟨t, ht, heq⟩ := hloop b.1 b.2 rest
        exact ⟨t, List.mem_cons_of_mem _ ht, heq⟩
    · rw [if_neg hzero]
      exact hloop range target rest

end DFANode

end Odyssey.ContentExtensions
