import Odyssey.ContentExtensions.DFABytecodeLayout
import Mathlib.Data.List.Induction
import Mathlib.Data.List.Nodup

/-!
# The sizes of the jumps

The size of a jump is chosen before its destination is placed, from where the nodes would be if all
jumps had the full size. Each node takes at most the space that is set aside for it, so nodes only
move closer together, and the distances fit when the program is linked.
-/
namespace Odyssey.ContentExtensions

namespace DFABytecodeCompiler

open Lib.Bytes

/-! ## The space for a node -/

/-- The space that is set aside for an instruction. -/
def Code.maxLength : Code → Nat
  | .action a => appendActionBytecodeSize a
  | .table t => checkForJumpTableMaxBytecodeSize t
  | .range r => checkForRangeMaxBytecodeSize r
  | .jump _ => 5
  | .terminate => 1

/-- A table has no more destinations than characters. -/
def Code.Bounded : Code → Prop
  | .table t => t.destinations.length ≤ t.max - t.min + 1
  | _ => True

theorem inBytes_le (size : DFABytecodeJumpSize) : size.inBytes ≤ 4 := by cases size <;> decide

theorem length_actionBytes (a : Nat) : (actionBytes a).length = appendActionBytecodeSize a := by
  simp only [actionBytes, appendActionBytecodeSize]
  by_cases h : actionFlags a = 0 <;> simp [h, length_littleEndian]

theorem Code.length_le {code : Code} (h : code.Bounded) (size : DFABytecodeJumpSize) :
    code.length size ≤ code.maxLength := by
  have hsize := inBytes_le size
  cases code with
  | action a => exact (length_actionBytes a).le
  | table t =>
    have hmul : t.destinations.length * size.inBytes ≤ (t.max - t.min + 1) * 4 :=
      Nat.mul_le_mul h hsize
    simp only [Code.length, Code.maxLength, checkForJumpTableMaxBytecodeSize]
    omega
  | range r =>
    simp only [Code.length, Code.maxLength, checkForRangeMaxBytecodeSize]
    split_ifs <;> omega
  | jump target =>
    simp only [Code.length, Code.maxLength]
    omega
  | terminate => exact le_refl 1

variable {ps : List (Piece LinkRecord)} {node : DFANode} {dfa : DFA}

theorem Lays.length_le {location : Nat} {codes : List Code} (h : Lays location codes ps)
    (hbounded : ∀ code ∈ codes, code.Bounded) :
    (Piece.fill blank ps).length ≤ (codes.map Code.maxLength).sum := by
  induction h with
  | nil => simp [Piece.fill]
  | @cons location code rest ps size _ ih =>
    have hcode := Code.length_le (hbounded code List.mem_cons_self) size
    have hrest := ih fun code hcode => hbounded code (List.mem_cons_of_mem _ hcode)
    rw [Piece.fill_append, List.length_append, length_fill_pieces length_blank, List.map_cons,
      List.sum_cons]
    omega

theorem actionsLength_eq (node : DFANode) : actionsLength node = actionsBytecodeSize node := by
  rw [actionsLength, List.length_flatMap, actionsBytecodeSize]
  congr 1
  exact List.map_congr_left fun a _ => length_actionBytes a

theorem maxLength_transitionCode (node : DFANode) :
    ((transitionCode node).map Code.maxLength).sum = nodeTransitionsMaxBytecodeSize node := by
  have hlast : (lastCode node).maxLength =
      if (transitions node).fallbackTransitionTarget.isSome then 1 + 4 else 1 := by
    rw [lastCode, show (transitions node).fallbackTransitionTarget = fallback node from rfl]
    cases fallback node <;> rfl
  simp only [transitionCode, nodeTransitionsMaxBytecodeSize, List.map_append, List.map_map,
    List.sum_append, List.map_cons, List.map_nil, List.sum_cons, List.sum_nil, hlast]
  rfl

theorem maxLength_nodeCode (node : DFANode) :
    ((nodeCode node).map Code.maxLength).sum =
      actionsBytecodeSize node + nodeTransitionsMaxBytecodeSize node := by
  rw [nodeCode, List.map_append, List.sum_append, maxLength_transitionCode, List.map_map]
  rfl

theorem bounded_nodeCode (wf : node.WellFormed dfa) :
    ∀ code ∈ nodeCode node, code.Bounded := by
  have hrepresents := represents_transitions wf
  intro code hcode
  cases code with
  | table t =>
    have hlast : Code.table t ≠ lastCode node := by
      rw [lastCode]
      intro h
      cases hfallback : fallback node <;> rw [hfallback] at h <;> cases h
    have ht : t ∈ (transitions node).jumpTables := by
      simpa [nodeCode, transitionCode, hlast] using hcode
    have := (hrepresents.tablesWellFormed t ht).length
    have := (hrepresents.tablesWellFormed t ht).nonempty
    simp only [Code.Bounded]
    omega
  | _ => trivial

/-! ## A node has little code -/

theorem length_endRange (s : Scan) (rangeMin rangeMax : Nat) :
    (s.endRange rangeMin rangeMax).ranges.length = s.ranges.length + 1 := by
  unfold Scan.endRange
  split_ifs <;> simp

theorem length_step_le (s : Scan) (i : Nat) : (s.step i).ranges.length ≤ s.ranges.length + 1 := by
  unfold Scan.step
  split
  · split_ifs
    · exact (length_endRange s _ _).le
    · exact Nat.le_succ _
  · split_ifs <;> exact Nat.le_succ _

theorem length_foldl_step_le (l : List Nat) (s : Scan) :
    (l.foldl Scan.step s).ranges.length ≤ s.ranges.length + l.length := by
  induction l generalizing s with
  | nil => exact le_refl _
  | cons i l ih =>
    have hstep := length_step_le s i
    have hrest := ih (s.step i)
    rw [List.foldl_cons, List.length_cons]
    omega

theorem length_computeRanges_le (d : Destinations) : (computeRanges d).length ≤ 129 := by
  have hscan := length_foldl_step_le (List.range 128) ⟨d, [], none⟩
  rw [List.length_range, List.length_nil] at hscan
  unfold computeRanges
  simp only
  split
  · rw [List.length_append, List.length_singleton]
    omega
  · omega

/-- The ranges, those that became a part of a table included. -/
def rangeCount (tables : List JumpTable) (ranges : List Range) : Nat :=
  (tables.map fun t => t.destinations.length).sum + ranges.length

theorem rangeCount_extractJumpTable (s : Extraction) {first last : Nat} (h : first ≤ last) :
    rangeCount (s.extractJumpTable first last).jumpTables (s.extractJumpTable first last).ranges =
      rangeCount s.jumpTables s.ranges := by
  simp only [rangeCount, Extraction.extractJumpTable, List.map_append, List.sum_append,
    List.map_cons, List.map_nil, List.sum_cons, List.sum_nil, List.length_map, List.length_append,
    List.length_take, List.length_drop]
  omega

theorem rangeCount_step (s : Extraction) :
    rangeCount s.step.jumpTables s.step.ranges = rangeCount s.jumpTables s.ranges := by
  unfold Extraction.step
  simp only
  split
  · next base _ =>
    split_ifs with hend hlong
    · exact rangeCount_extractJumpTable s (by omega)
    · rfl
    · rfl
  · rfl

theorem rangeCount_loop (fuel : Nat) (s : Extraction) :
    rangeCount (s.loop fuel).jumpTables (s.loop fuel).ranges =
      rangeCount s.jumpTables s.ranges := by
  induction fuel generalizing s with
  | zero => rfl
  | succ fuel ih =>
    rw [Extraction.loop]
    split_ifs
    · rw [ih, rangeCount_step]
    · rfl

theorem rangeCount_extractJumpTables (ranges : List Range) :
    rangeCount (extractJumpTables ranges).1 (extractJumpTables ranges).2 = ranges.length := by
  have hloop := rangeCount_loop ranges.length ⟨[], ranges, 0, none⟩
  have hstart : rangeCount [] ranges = ranges.length := by simp [rangeCount]
  rw [← hstart, ← hloop]
  unfold extractJumpTables
  simp only
  split
  · split_ifs with hlong
    · exact rangeCount_extractJumpTable _ (by omega)
    · rfl
  · rfl

/-- The space for the transitions of a node. -/
theorem nodeTransitionsMaxBytecodeSize_le (wf : node.WellFormed dfa) :
    nodeTransitionsMaxBytecodeSize node ≤ 908 := by
  have hcount : rangeCount (transitions node).jumpTables (transitions node).ranges ≤ 129 := by
    simp only [transitions]
    rw [rangeCount_extractJumpTables]
    exact length_computeRanges_le _
  have htables : ∀ l : List JumpTable, (∀ t ∈ l, t ∈ (transitions node).jumpTables) →
      (l.map checkForJumpTableMaxBytecodeSize).sum ≤
        7 * (l.map fun t => t.destinations.length).sum := by
    intro l hl
    induction l with
    | nil => simp
    | cons t l ih =>
      have ht := (represents_transitions wf).tablesWellFormed t (hl t List.mem_cons_self)
      have := ht.length
      have := ht.nonempty
      have := ih fun t ht => hl t (List.mem_cons_of_mem _ ht)
      simp only [List.map_cons, List.sum_cons, checkForJumpTableMaxBytecodeSize]
      omega
  have hranges : ∀ l : List Range, (l.map checkForRangeMaxBytecodeSize).sum ≤ 7 * l.length := by
    intro l
    induction l with
    | nil => simp
    | cons r l ih =>
      simp only [List.map_cons, List.sum_cons, List.length_cons, checkForRangeMaxBytecodeSize]
      split_ifs <;> omega
  have := htables _ fun t ht => ht
  have := hranges (transitions node).ranges
  simp only [rangeCount] at hcount
  simp only [nodeTransitionsMaxBytecodeSize]
  split_ifs <;> omega

theorem actionsBytecodeSize_le (wf : node.WellFormed dfa) :
    actionsBytecodeSize node ≤ 7 * 2 ^ 16 := by
  have hsum : ∀ l : List Nat, (l.map appendActionBytecodeSize).sum ≤ 7 * l.length := by
    intro l
    induction l with
    | nil => simp
    | cons a l ih =>
      simp only [List.map_cons, List.sum_cons, List.length_cons, appendActionBytecodeSize]
      split_ifs <;> omega
  have := hsum node.actions
  have := wf.actionsLength
  rw [actionsBytecodeSize]
  omega

/-! ## Jumps go to live nodes -/

section

variable {d : Destinations} {P : Nat → Prop} (hP : ∀ c target, d c = some target → P target)

include hP

theorem ScanInv.destination {i m : Nat} {s : Scan} (inv : ScanInv d i s)
    (hm : s.rangeMin = some m) : P ((s.destinations m).getD (2 ^ 32 - 1)) := by
  obtain ⟨target, htarget⟩ := Option.ne_none_iff_exists'.1 (inv.pending m hm).2.1
  rw [htarget, Option.getD_some]
  exact hP m target (inv.covers.sub m target htarget)

theorem ScanInv.step_destination {i : Nat} {s : Scan} (inv : ScanInv d i s)
    (h : ∀ r ∈ s.ranges, P r.destination) : ∀ r ∈ (s.step i).ranges, P r.destination := by
  unfold Scan.step
  split
  · next m hm =>
    split_ifs
    · intro r hr
      have hnew := inv.destination hP hm
      unfold Scan.endRange at hr
      simp only at hr
      split_ifs at hr <;> rcases List.mem_append.1 hr with hr | hr
      · exact h r hr
      · rwa [List.mem_singleton.1 hr]
      · exact h r hr
      · rwa [List.mem_singleton.1 hr]
    · exact h
  · split_ifs <;> exact h

theorem foldl_step_destination {n : Nat} (hn : n ≤ 128) :
    ∀ r ∈ ((List.range n).foldl Scan.step ⟨d, [], none⟩).ranges, P r.destination := by
  induction n with
  | zero => simp
  | succ n ih =>
    rw [List.range_succ, List.foldl_append]
    exact (ScanInv.foldl d (by omega : n ≤ 128)).step_destination hP (ih (by omega))

theorem computeRanges_destination : ∀ r ∈ computeRanges d, P r.destination := by
  have hranges := foldl_step_destination hP (le_refl 128)
  have inv := ScanInv.foldl d (le_refl 128)
  unfold computeRanges
  generalize (List.range 128).foldl Scan.step ⟨d, [], none⟩ = s at hranges inv
  simp only
  split
  · next m hm =>
    intro r hr
    rcases List.mem_append.1 hr with hr | hr
    · exact hranges r hr
    · rw [List.mem_singleton.1 hr]
      exact inv.destination hP hm
  · exact hranges

end

/-- All destinations of tables and ranges have a property. -/
def Targets (P : Nat → Prop) (tables : List JumpTable) (ranges : List Range) : Prop :=
  (∀ t ∈ tables, ∀ target ∈ t.destinations, P target) ∧ ∀ r ∈ ranges, P r.destination

section

variable {P : Nat → Prop}

theorem Targets.extractJumpTable {s : Extraction} (h : Targets P s.jumpTables s.ranges)
    (first last : Nat) : Targets P (s.extractJumpTable first last).jumpTables
      (s.extractJumpTable first last).ranges := by
  refine ⟨fun t ht target htarget => ?_, fun r hr => h.2 r ?_⟩
  · rcases List.mem_append.1 ht with ht | ht
    · exact h.1 t ht target htarget
    · rw [List.mem_singleton.1 ht] at htarget
      obtain ⟨r, hr, rfl⟩ := List.mem_map.1 htarget
      exact h.2 r (List.mem_of_mem_drop (List.mem_of_mem_take hr))
  · rcases List.mem_append.1 hr with hr | hr
    · exact List.mem_of_mem_take hr
    · exact List.mem_of_mem_drop hr

theorem Targets.step {s : Extraction} (h : Targets P s.jumpTables s.ranges) :
    Targets P s.step.jumpTables s.step.ranges := by
  unfold Extraction.step
  simp only
  split
  · split_ifs
    · exact h.extractJumpTable _ _
    · exact h
    · exact h
  · exact h

theorem Targets.loop {s : Extraction} (h : Targets P s.jumpTables s.ranges) (fuel : Nat) :
    Targets P (s.loop fuel).jumpTables (s.loop fuel).ranges := by
  induction fuel generalizing s with
  | zero => exact h
  | succ fuel ih =>
    rw [Extraction.loop]
    split_ifs
    · exact ih h.step
    · exact h

theorem Targets.extractJumpTables {ranges : List Range} (h : ∀ r ∈ ranges, P r.destination) :
    Targets P (extractJumpTables ranges).1 (extractJumpTables ranges).2 := by
  have hstart : Targets P [] ranges := ⟨by simp, h⟩
  have hloop := Targets.loop (s := ⟨[], ranges, 0, none⟩) hstart ranges.length
  unfold DFABytecodeCompiler.extractJumpTables
  simp only
  split
  · split_ifs
    · exact hloop.extractJumpTable _ _
    · exact hloop
  · exact hloop

end

theorem live_of_mem_targets (wf : node.WellFormed dfa) {code : Code}
    (hcode : code ∈ nodeCode node) {target : Nat} (htarget : target ∈ code.targets) :
    dfa.Live target := by
  have hfill : fillDestinations (fallback node) (fun _ => none) node.transitions =
      checkedNext node := funext fun c => fillDestinations_eq wf.sorted rfl
  have hnext : ∀ c target, checkedNext node c = some target → dfa.Live target := by
    intro c target h
    obtain ⟨j, hj, hrest⟩ := Option.bind_eq_some_iff.1 h
    obtain ⟨t, ht, -, rfl⟩ := DFANode.mem_of_next hj
    split_ifs at hrest
    cases hrest
    exact wf.targets t ht
  have htargets : Targets dfa.Live (transitions node).jumpTables (transitions node).ranges := by
    rw [fallback] at hfill
    simp only [transitions, hfill]
    exact Targets.extractJumpTables (computeRanges_destination hnext)
  simp only [nodeCode, transitionCode, List.mem_append, List.mem_map, List.mem_singleton] at hcode
  rcases hcode with ⟨a, -, rfl⟩ | (⟨t, ht, rfl⟩ | ⟨r, hr, rfl⟩) | rfl
  · cases htarget
  · exact htargets.1 t ht target htarget
  · rw [List.mem_singleton.1 htarget]
    exact htargets.2 r hr
  · unfold lastCode fallback at htarget
    split_ifs at htarget with hcan
    · obtain ⟨t, ht, heq⟩ := DFANode.bestFallbackTarget_mem hcan
      rw [List.mem_singleton.1 htarget, ← heq]
      exact wf.targets t ht
    · cases htarget

/-! ## Sizes and distances -/

section

variable {size : DFABytecodeJumpSize} {estimate distance : Int}

theorem fits_of_estimate (h : (smallestPossibleJumpSize estimate).inBytes ≤ size.inBytes)
    (hlow : estimate ≤ distance ∨ 0 ≤ distance) (hhigh : distance ≤ estimate)
    (hmin : -2 ^ 31 ≤ estimate) (hmax : estimate < 2 ^ 31) : size.Fits distance := by
  unfold smallestPossibleJumpSize at h
  split_ifs at h <;> cases size <;>
    simp only [DFABytecodeJumpSize.inBytes, DFABytecodeJumpSize.Fits] at h ⊢ <;> omega

/-- A jump whose distance is known. -/
theorem fits_of_exact
    (h : (smallestPossibleJumpSize (Int.bmod distance (2 ^ 32))).inBytes ≤ size.inBytes)
    (hmin : -2 ^ 31 ≤ distance) (hmax : distance < 2 ^ 31) : size.Fits distance := by
  have hbmod : Int.bmod distance (2 ^ 32) = distance :=
    Int.bmod_eq_of_le (by omega) (by omega)
  rw [hbmod] at h
  exact fits_of_estimate h (.inl (le_refl _)) (le_refl _) hmin hmax

/-- A jump to a node that is not placed yet. An estimate that overflows gives the full size. -/
theorem fits_of_longest
    (h : (smallestPossibleJumpSize (Int.bmod estimate (2 ^ 32))).inBytes ≤ size.inBytes)
    (hlow : 0 ≤ distance) (hhigh : distance ≤ estimate) (hmax : distance < 2 ^ 31)
    (hestimate : estimate < 2 ^ 32 - 2 ^ 24) : size.Fits distance := by
  by_cases hsmall : estimate < 2 ^ 31
  · rw [Int.bmod_eq_of_le (by omega) (by omega)] at h
    exact fits_of_estimate h (.inr hlow) hhigh (by omega) hsmall
  · have hbmod : Int.bmod estimate (2 ^ 32) = estimate - 2 ^ 32 := by
      rw [Int.bmod_def]
      omega
    rw [hbmod, smallestPossibleJumpSize, if_neg (by omega), if_neg (by omega),
      if_neg (by omega)] at h
    cases size <;> simp only [DFABytecodeJumpSize.inBytes, DFABytecodeJumpSize.Fits] at h ⊢ <;>
      omega

end

/-! ## The places of the nodes -/

/-- The root is compiled first. -/
def order (dfa : DFA) : List Nat :=
  dfa.root :: (List.range dfa.nodes.length).filter (· ≠ dfa.root)

/-- The space for a node. -/
def maxSize (dfa : DFA) (i : Nat) : Nat := ((dfa.nodes[i]?).map compiledNodeMaxBytecodeSize).getD 0

/-- Where the nodes would end if all jumps had the full size. -/
def maxEnd (dfa : DFA) (nodes : List Nat) : Nat := 4 + (nodes.map (maxSize dfa)).sum

/-- The size of the bytecode without compaction. -/
def maxBytecodeSize (dfa : DFA) : Nat := maxEnd dfa (order dfa)

theorem maxEnd_append (dfa : DFA) (l l' : List Nat) :
    maxEnd dfa (l ++ l') = maxEnd dfa l + (l'.map (maxSize dfa)).sum := by
  rw [maxEnd, maxEnd, List.map_append, List.sum_append]
  omega

theorem maxEnd_le {l l' : List Nat} (h : order dfa = l ++ l') :
    maxEnd dfa l ≤ maxBytecodeSize dfa := by
  rw [maxBytecodeSize, h, maxEnd_append]
  omega

theorem nodup_order (dfa : DFA) : (order dfa).Nodup :=
  List.nodup_cons.mpr ⟨by simp, List.nodup_range.filter _⟩

theorem mem_order {i : Nat} (h : dfa.Live i) : i ∈ order dfa := by
  obtain ⟨node, hnode, -⟩ := h
  have := (List.getElem?_eq_some_iff.1 hnode).1
  by_cases hroot : i = dfa.root
  · exact List.mem_cons.mpr (.inl hroot)
  · exact List.mem_cons_of_mem _ (by simp [this, hroot])

theorem sum_filter_ne (f : Nat → Nat) (root : Nat) (l : List Nat) :
    ((l.filter (· ≠ root)).map f).sum = (l.map fun j => if j = root then 0 else f j).sum := by
  induction l with
  | nil => rfl
  | cons j l ih =>
    by_cases hj : j = root
    · simpa [hj] using ih
    · simpa [hj] using ih

theorem maxNodeStartOffset_root (hnode : dfa.nodes[dfa.root]? = some node)
    (hsmall : 4 + actionsBytecodeSize node < 2 ^ 32) :
    maxNodeStartOffset dfa dfa.root = 4 + actionsBytecodeSize node := by
  simp only [maxNodeStartOffset, if_true, hnode, Option.map_some, Option.getD_some]
  exact Nat.mod_eq_of_lt hsmall

/-- A node other than the root would start where those before it would end. -/
theorem maxNodeStartOffset_eq {done rest : List Nat} {i : Nat}
    (horder : order dfa = done ++ i :: rest) (hne : i ≠ dfa.root)
    (hsmall : maxBytecodeSize dfa < 2 ^ 31) : maxNodeStartOffset dfa i = maxEnd dfa done := by
  obtain ⟨done, rfl⟩ : ∃ l, done = dfa.root :: l := by
    cases done with
    | nil => exact absurd (List.cons.inj horder).1.symm hne
    | cons a l => exact ⟨l, by rw [(List.cons.inj horder).1]⟩
  have hend := maxEnd_le horder
  have hi : i < dfa.nodes.length := by
    have : i ∈ order dfa := by simp [horder]
    simpa [order, hne] using this
  have hrange : List.range dfa.nodes.length =
      List.range i ++ i :: List.range' (i + 1) (dfa.nodes.length - (i + 1)) := by
    rw [List.range_eq_range', List.range_eq_range', ← List.range'_succ]
    have := List.range'_append_1 (s := 0) (m := i) (n := dfa.nodes.length - (i + 1) + 1)
    rw [Nat.zero_add, show i + (dfa.nodes.length - (i + 1) + 1) = dfa.nodes.length by omega] at this
    exact this.symm
  have hdone : (List.range i).filter (· ≠ dfa.root) = done := by
    have horder := (List.cons.inj horder).2
    rw [hrange, List.filter_append, List.filter_cons_of_pos (by simpa using hne)] at horder
    exact ((List.append_cons_inj_of_notMem (by simp) (by simp)).mp horder).1
  have hsum : sizeBefore dfa i = (done.map (maxSize dfa)).sum := by
    rw [← hdone, sum_filter_ne]
    rfl
  rw [maxEnd, List.map_cons, List.sum_cons] at hend
  rw [maxEnd, List.map_cons, List.sum_cons, maxNodeStartOffset, if_neg hne, hsum]
  change (4 + maxSize dfa dfa.root + _) % 2 ^ 32 = _
  rw [Nat.mod_eq_of_lt (by omega)]
  omega

/-! ## Emission -/

theorem Code.length_pos (code : Code) (size : DFABytecodeJumpSize) : 0 < code.length size := by
  cases code with
  | action a =>
    simp only [Code.length, actionBytes]
    split_ifs <;> simp
  | range r =>
    simp only [Code.length]
    split_ifs <;> omega
  | _ => simp only [Code.length]; omega

/-- The actions have no jumps. -/
theorem Lays.split_actions {location : Nat} {actions : List Nat} {rest : List Code}
    (h : Lays location (actions.map .action ++ rest) ps) :
    ∃ qs rs, ps = qs ++ rs ∧ Piece.slots qs = [] ∧
      (Piece.fill blank qs).length = (actions.flatMap actionBytes).length ∧
      Lays (location + (actions.flatMap actionBytes).length) rest rs := by
  induction actions generalizing location ps with
  | nil => exact ⟨[], ps, rfl, rfl, rfl, h⟩
  | cons a actions ih =>
    obtain _ | ⟨size, h⟩ := h
    obtain ⟨qs, rs, rfl, hslots, hlength, hrest⟩ := ih h
    refine ⟨_, rs, (List.append_assoc _ _ _).symm, ?_, ?_, ?_⟩
    · rw [Piece.slots_append, hslots, List.append_nil]
      exact Piece.slots_map_byte _
    · rw [Piece.fill_append, List.length_append, length_fill_pieces length_blank, hlength,
        List.flatMap_cons, List.length_append]
      rfl
    · rw [List.flatMap_cons, List.length_append, ← Nat.add_assoc]
      exact hrest

/-- The code of a node: it fits into its space, and all jumps are behind the actions. -/
theorem Lays.nodeCode {location : Nat} (wf : node.WellFormed dfa)
    (h : Lays location (nodeCode node) ps) :
    (Piece.fill blank ps).length ≤ actionsBytecodeSize node + nodeTransitionsMaxBytecodeSize node ∧
      actionsBytecodeSize node < (Piece.fill blank ps).length ∧
      ∀ r ∈ Piece.slots ps, location + actionsBytecodeSize node ≤ r.instructionLocation ∧
        r.instructionLocation < location + (Piece.fill blank ps).length := by
  have hmax := h.length_le (bounded_nodeCode wf)
  rw [maxLength_nodeCode] at hmax
  obtain ⟨qs, rs, rfl, hslots, hlength, hrest⟩ := h.split_actions
  rw [← actionsLength, actionsLength_eq] at hlength hrest
  have hpos : 0 < (Piece.fill blank rs).length := by
    have hcons : transitionCode node ≠ [] := by simp [transitionCode]
    generalize transitionCode node = codes at hrest hcons
    cases hrest with
    | nil => exact absurd rfl hcons
    | cons size _ =>
      rw [Piece.fill_append, List.length_append, length_fill_pieces length_blank]
      exact Nat.add_pos_left (Code.length_pos _ _) _
  rw [Piece.fill_append, List.length_append, hlength] at hmax ⊢
  refine ⟨hmax, by omega, fun r hr => ?_⟩
  rw [Piece.slots_append, hslots, List.nil_append] at hr
  obtain ⟨-, hlow, hhigh⟩ := hrest.mem_slots hr
  omega

/-- A jump whose destination is placed fits, and one whose destination is not placed yet fits
wherever the destination can still come to stand. -/
def Promised (dfa : DFA) (done : List Nat) (s : State) (r : LinkRecord) : Prop :=
  match s.nodeStartOffsets r.destinationNodeIndex with
  | some offset => r.jumpSize.Fits (offset - r.instructionLocation)
  | none => ∀ distance : Int, 0 ≤ distance →
      distance ≤ (maxNodeStartOffset dfa r.destinationNodeIndex : Int) - maxEnd dfa done +
        (s.bytecode.length - r.instructionLocation) → r.jumpSize.Fits distance

/-- Some nodes have been compiled. -/
structure Spaced (dfa : DFA) (done : List Nat) (s : State) : Prop where
  emitted : ∃ ps, Emitted s ps
  length : s.bytecode.length ≤ maxEnd dfa done
  start : done = [] → s.bytecode.length = 4 ∧ s.linkRecords = []
  offsets : ∀ i offset, s.nodeStartOffsets i = some offset →
    i ∈ done ∧ offset ≤ maxNodeStartOffset dfa i ∧ offset < s.bytecode.length
  compiled : ∀ i ∈ done, dfa.Live i → s.nodeStartOffsets i ≠ none
  records : ∀ r ∈ s.linkRecords, r.instructionLocation < s.bytecode.length ∧
    dfa.Live r.destinationNodeIndex ∧ Promised dfa done s r

/-- What the compilation of a live node adds. -/
theorem compileNode_adds {s : State} {index : Nat} (root : Bool) (hs : ∃ ps, Emitted s ps)
    (hnode : dfa.nodes[index]? = some node) (hlive : node.isKilled = false)
    (wf : node.WellFormed dfa) :
    (∃ ps, Emitted (s.compileNode dfa index root) ps) ∧
    ∃ added, (s.compileNode dfa index root).bytecode.length = s.bytecode.length + added ∧
      added ≤ actionsBytecodeSize node + nodeTransitionsMaxBytecodeSize node ∧
      actionsBytecodeSize node < added ∧
      ∃ records, (s.compileNode dfa index root).linkRecords = s.linkRecords ++ records ∧
        ∀ r ∈ records, s.bytecode.length + actionsBytecodeSize node ≤ r.instructionLocation ∧
          r.instructionLocation < s.bytecode.length + added ∧ dfa.Live r.destinationNodeIndex ∧
          Chosen dfa (s.compileNode dfa index root).nodeStartOffsets index r := by
  obtain ⟨ps, hps⟩ := hs
  obtain ⟨qs, hqs, hlays, hchosen⟩ := (compileNode_spec root hnode hlive).2 ps hps
  obtain ⟨hmax, hmin, hslots⟩ := hlays.nodeCode wf
  refine ⟨⟨_, hqs⟩, (Piece.fill blank qs).length, ?_, hmax, hmin, Piece.slots qs, ?_,
    fun r hr => ?_⟩
  · rw [hqs.bytecode, hps.bytecode, Piece.fill_append, List.length_append]
  · rw [hqs.linkRecords, hps.linkRecords, Piece.slots_append]
  · obtain ⟨⟨code, hcode, htarget⟩, -⟩ := hlays.mem_slots hr
    exact ⟨(hslots r hr).1, (hslots r hr).2, live_of_mem_targets wf hcode htarget, hchosen r hr⟩

section

variable {dfa : DFA} {done rest : List Nat} {index : Nat} {s : State}

theorem compileNode_of_not_live (h : ¬dfa.Live index) (root : Bool) :
    s.compileNode dfa index root = s ∧ maxSize dfa index = 0 := by
  unfold State.compileNode maxSize
  cases hnode : dfa.nodes[index]? with
  | none => exact ⟨rfl, rfl⟩
  | some node =>
    have hkilled : node.isKilled = true := by
      by_contra hkilled
      exact h ⟨node, hnode, by simpa using hkilled⟩
    simp [hkilled, compiledNodeMaxBytecodeSize]

theorem maxEnd_concat (dfa : DFA) (done : List Nat) (i : Nat) :
    maxEnd dfa (done ++ [i]) = maxEnd dfa done + maxSize dfa i := by
  rw [maxEnd_append, List.map_cons, List.map_nil, List.sum_cons, List.sum_nil, Nat.add_zero]

/-- A killed node takes no space. -/
theorem Spaced.compileNode_of_not_live (h : Spaced dfa done s) (hlive : ¬dfa.Live index)
    (root : Bool) : Spaced dfa (done ++ [index]) (s.compileNode dfa index root) := by
  obtain ⟨hsame, hsize⟩ := DFABytecodeCompiler.compileNode_of_not_live (s := s) hlive root
  have hend : maxEnd dfa (done ++ [index]) = maxEnd dfa done := by
    rw [maxEnd_concat, hsize, Nat.add_zero]
  rw [hsame]
  refine ⟨h.emitted, hend ▸ h.length, by simp, fun i offset hi => ?_, fun i hi hi' => ?_, ?_⟩
  · obtain ⟨hmem, hrest⟩ := h.offsets i offset hi
    exact ⟨List.mem_append_left _ hmem, hrest⟩
  · rcases List.mem_append.1 hi with hi | hi
    · exact h.compiled i hi hi'
    · rw [List.mem_singleton.1 hi] at hi'
      exact absurd hi' hlive
  · simp only [Promised, hend]
    exact h.records

/-- The root is not among the nodes behind another one. -/
theorem ne_root_of_mem {i : Nat} (horder : order dfa = done ++ index :: rest) (hi : i ∈ rest) :
    i ≠ dfa.root := by
  have hnodup := nodup_order dfa
  rintro rfl
  cases done with
  | nil =>
    rw [order, List.nil_append, List.cons.injEq] at horder
    rw [order, horder.2] at hnodup
    exact (List.nodup_cons.1 hnodup).1 hi
  | cons a done =>
    rw [order, List.cons_append, List.cons.injEq] at horder
    rw [order, horder.2] at hnodup
    exact (List.nodup_cons.1 hnodup).1 (by simp [hi])

/-- A live node that is not compiled yet would start behind those that are. -/
theorem maxEnd_le_maxNodeStartOffset {i : Nat} (horder : order dfa = done ++ index :: rest)
    (hi : i ∈ rest) (hsmall : maxBytecodeSize dfa < 2 ^ 31) :
    maxEnd dfa (done ++ [index]) ≤ maxNodeStartOffset dfa i ∧
      maxNodeStartOffset dfa i ≤ maxBytecodeSize dfa := by
  obtain ⟨l, l', rfl⟩ := List.append_of_mem hi
  have hsplit : order dfa = (done ++ [index] ++ l) ++ i :: l' := by simp [horder]
  rw [maxNodeStartOffset_eq hsplit (ne_root_of_mem horder hi) hsmall]
  refine ⟨?_, maxEnd_le hsplit⟩
  rw [maxEnd_append dfa (done ++ [index]) l]
  exact Nat.le_add_right _ _

/-- The node that is compiled next and its start offset: nothing in it is farther behind the offset
than it would be without compaction. -/
theorem Spaced.startOffset (h : Spaced dfa done s) (horder : order dfa = done ++ index :: rest)
    (hsmall : maxBytecodeSize dfa < 2 ^ 31) {node : DFANode} (hnode : dfa.nodes[index]? = some node)
    (hlive : node.isKilled = false) {added : Nat}
    (hadded : added ≤ actionsBytecodeSize node + nodeTransitionsMaxBytecodeSize node) :
    let offset := if decide (index = dfa.root) = true then s.bytecode.length + actionsLength node
      else s.bytecode.length
    maxEnd dfa (done ++ [index]) =
        maxEnd dfa done + (actionsBytecodeSize node + nodeTransitionsMaxBytecodeSize node) ∧
      maxEnd dfa (done ++ [index]) ≤ maxBytecodeSize dfa ∧
      s.bytecode.length ≤ offset ∧ offset ≤ s.bytecode.length + actionsBytecodeSize node ∧
      offset ≤ maxNodeStartOffset dfa index ∧
      s.bytecode.length + added + maxNodeStartOffset dfa index ≤
        maxEnd dfa (done ++ [index]) + offset ∧
      (done ≠ [] →
        offset = s.bytecode.length ∧ maxNodeStartOffset dfa index = maxEnd dfa done) := by
  have hsize : maxSize dfa index =
      actionsBytecodeSize node + nodeTransitionsMaxBytecodeSize node := by
    simp [maxSize, hnode, compiledNodeMaxBytecodeSize, hlive]
  have hend := maxEnd_concat dfa done index
  rw [hsize] at hend
  have hle : maxEnd dfa (done ++ [index]) ≤ maxBytecodeSize dfa :=
    maxEnd_le (show order dfa = done ++ [index] ++ rest by simp [horder])
  have hlength := h.length
  by_cases hroot : index = dfa.root
  · have hdone : done = [] := by
      cases done with
      | nil => rfl
      | cons a done =>
        rw [order, List.cons_append, List.cons.injEq] at horder
        have hnodup := nodup_order dfa
        rw [order, horder.2] at hnodup
        exact absurd (by simp [hroot]) (List.nodup_cons.1 hnodup).1
    obtain ⟨hfour, -⟩ := h.start hdone
    have hempty : maxEnd dfa done = 4 := by simp [maxEnd, hdone]
    have hmax : maxNodeStartOffset dfa index = 4 + actionsBytecodeSize node := by
      rw [hroot] at hnode ⊢
      exact maxNodeStartOffset_root hnode (by omega)
    simp only [hroot, decide_true, if_true, actionsLength_eq]
    rw [hroot] at hmax hend hle
    exact ⟨hend, hle, by omega, by omega, by omega, by omega, fun hne => absurd hdone hne⟩
  · have hmax := maxNodeStartOffset_eq horder hroot hsmall
    simp only [hroot, decide_false, Bool.false_eq_true, if_false]
    exact ⟨hend, hle, le_refl _, by omega, by omega, by omega, fun _ => ⟨trivial, hmax⟩⟩

theorem Spaced.compileNode_of_live (h : Spaced dfa done s) (wf : dfa.WellFormed)
    (horder : order dfa = done ++ index :: rest) (hsmall : maxBytecodeSize dfa < 2 ^ 31)
    {node : DFANode} (hnode : dfa.nodes[index]? = some node) (hlive : node.isKilled = false) :
    Spaced dfa (done ++ [index]) (s.compileNode dfa index (decide (index = dfa.root))) := by
  have wfNode := wf.nodes index node hnode hlive
  obtain ⟨hemitted, added, hlength, hadded, hpos, records, hrecords, hnew⟩ := compileNode_adds
    (decide (index = dfa.root)) h.emitted hnode hlive wfNode
  have hoffsets := (compileNode_spec (s := s) (decide (index = dfa.root)) hnode hlive).1
  obtain ⟨hend, hle, hlow, hhigh, hmax, hspace, hlater⟩ :=
    h.startOffset horder hsmall hnode hlive hadded
  have hactions := actionsBytecodeSize_le wfNode
  have htransitions := nodeTransitionsMaxBytecodeSize_le wfNode
  have hold := h.length
  generalize (if decide (index = dfa.root) = true then s.bytecode.length + actionsLength node
    else s.bytecode.length) = offset at hoffsets hlow hhigh hmax hspace hlater
  generalize s.compileNode dfa index (decide (index = dfa.root)) = t at *
  have hindex : s.nodeStartOffsets index = none := by
    rw [Option.eq_none_iff_forall_ne_some]
    intro o ho
    have hnodup := nodup_order dfa
    rw [horder] at hnodup
    exact List.disjoint_of_nodup_append hnodup (h.offsets index o ho).1 List.mem_cons_self
  have hplaced : ∀ i o, t.nodeStartOffsets i = some o → i ∈ done ++ [index] ∧
      o ≤ maxNodeStartOffset dfa i ∧ o < t.bytecode.length := by
    intro i o ho
    rw [hoffsets] at ho
    by_cases hi : i = index
    · simp only [hi, if_true, Option.some.injEq] at ho
      rw [hi, ← ho, hlength]
      exact ⟨by simp, hmax, by omega⟩
    · simp only [hi, if_false] at ho
      obtain ⟨hmem, hle, hlt⟩ := h.offsets i o ho
      exact ⟨List.mem_append_left _ hmem, hle, by omega⟩
  have hcompiled : ∀ i ∈ done ++ [index], dfa.Live i → t.nodeStartOffsets i ≠ none := by
    intro i hi hi'
    rw [hoffsets]
    rcases List.mem_append.1 hi with hi | hi
    · by_cases heq : i = index
      · simp [heq]
      · simpa [heq] using h.compiled i hi hi'
    · simp [List.mem_singleton.1 hi]
  refine ⟨hemitted, by omega, by simp, hplaced, hcompiled, fun r hr => ?_⟩
  rw [hrecords] at hr
  rcases List.mem_append.1 hr with hr | hr
  · obtain ⟨hinside, htarget, hpromise⟩ := h.records r hr
    refine ⟨by omega, htarget, ?_⟩
    unfold Promised at hpromise ⊢
    rw [hoffsets]
    by_cases hdestination : r.destinationNodeIndex = index
    · -- the destination gets its place, which is the end of the bytecode
      have hdone : done ≠ [] := by
        rintro rfl
        rw [(h.start rfl).2] at hr
        cases hr
      obtain ⟨hoffset, hstart⟩ := hlater hdone
      rw [hdestination, hindex] at hpromise
      simp only [hdestination, if_true]
      exact hpromise _ (by omega) (by omega)
    · simp only [hdestination, if_false]
      cases hplace : s.nodeStartOffsets r.destinationNodeIndex with
      | some o => simpa only [hplace] using hpromise
      | none =>
        rw [hplace] at hpromise
        exact fun distance hmin hmax => hpromise distance hmin (by omega)
  · obtain ⟨hfirst, hlast, htarget, hchosen⟩ := hnew r hr
    refine ⟨by omega, htarget, ?_⟩
    unfold Promised
    unfold Chosen longestPossibleJump at hchosen
    cases hplace : t.nodeStartOffsets r.destinationNodeIndex with
    | some o =>
      rw [hplace] at hchosen
      have := (hplaced _ o hplace).2.2
      exact fits_of_exact hchosen (by omega) (by omega)
    | none =>
      have hsource : t.nodeStartOffsets index = some offset := by simp [hoffsets]
      have hrest : r.destinationNodeIndex ∈ rest := by
        have hmem := mem_order htarget
        rw [horder, List.append_cons, List.mem_append] at hmem
        exact hmem.resolve_left fun hdone => hcompiled _ hdone htarget hplace
      obtain ⟨hbehind, hinside⟩ := maxEnd_le_maxNodeStartOffset horder hrest hsmall
      rw [hplace, hsource, Option.getD_some] at hchosen
      intro distance hmin hmax
      exact fits_of_longest hchosen hmin (by omega) (by omega) (by omega)

end

/-! ## The whole compilation -/

section

variable {dfa : DFA} (wf : dfa.WellFormed) (hsmall : maxBytecodeSize dfa < 2 ^ 31)

/-- The state after some nodes have been compiled. -/
def emitFirst (dfa : DFA) (nodes : List Nat) : State :=
  nodes.foldl (fun s i => s.compileNode dfa i (decide (i = dfa.root)))
    ⟨littleEndian 4 0, fun _ => none, []⟩

theorem emitNodes_eq (dfa : DFA) : emitNodes dfa = emitFirst dfa (order dfa) := by
  rw [emitNodes, emitFirst, order, List.foldl_cons, decide_eq_true rfl]
  refine List.foldl_ext _ _ _ fun s i hi => ?_
  have hne : i ≠ dfa.root := by simpa using (List.mem_filter.1 hi).2
  rw [decide_eq_false hne]

include wf hsmall

theorem spaced_emitFirst {done rest : List Nat} (horder : order dfa = done ++ rest) :
    Spaced dfa done (emitFirst dfa done) := by
  induction done using List.reverseRecOn generalizing rest with
  | nil =>
    refine ⟨⟨(littleEndian 4 0).map .byte, ?_, ?_, ?_⟩, ?_, ?_, ?_, ?_, ?_⟩
    · simp [emitFirst, Piece.fill_map_byte]
    · simp [emitFirst, Piece.slots_map_byte]
    · exact Piece.placed_map_byte _ _ _ _
    · simp [emitFirst, maxEnd, length_littleEndian]
    · simp [emitFirst, length_littleEndian]
    all_goals simp [emitFirst]
  | append_singleton done i ih =>
    have horder' : order dfa = done ++ i :: rest := by simpa using horder
    have hspaced := ih horder'
    rw [emitFirst, List.foldl_append, ← emitFirst]
    by_cases hlive : dfa.Live i
    · obtain ⟨node, hnode, hkilled⟩ := hlive
      exact hspaced.compileNode_of_live wf horder' hsmall hnode hkilled
    · exact hspaced.compileNode_of_not_live hlive _

theorem spaced_emitNodes : Spaced dfa (order dfa) (emitNodes dfa) := by
  rw [emitNodes_eq]
  exact spaced_emitFirst wf hsmall (List.append_nil _).symm

/-- The `RELEASE_ASSERT`s of the link loop hold. -/
theorem linked_emitNodes : ∀ r ∈ (emitNodes dfa).linkRecords,
    Linked (emitNodes dfa).nodeStartOffsets r := by
  have hspaced := spaced_emitNodes wf hsmall
  intro r hr
  obtain ⟨hinside, hlive, hpromise⟩ := hspaced.records r hr
  obtain ⟨offset, hoffset⟩ :=
    Option.ne_none_iff_exists'.1 (hspaced.compiled _ (mem_order hlive) hlive)
  have hlength := hspaced.length
  have hplaced := (hspaced.offsets _ offset hoffset).2.2
  rw [← maxBytecodeSize] at hlength
  refine ⟨⟨offset, hoffset, by omega⟩, ?_⟩
  rw [Promised, hoffset] at hpromise
  rwa [distance, hoffset, Option.getD_some, Int.bmod_eq_of_le (by omega) (by omega)]

end

theorem length_overwrite {bytes new : List Nat} {index : Nat}
    (h : index + new.length ≤ bytes.length) :
    (overwrite bytes index new).length = bytes.length := by
  simp only [overwrite, List.length_append, List.length_take, List.length_drop]
  omega

/-- Linking goes through if the asserts hold and the records are inside the bytecode. -/
theorem exists_foldlM_link {offsets : Nat → Option Nat} {l : List LinkRecord} {bytecode : List Nat}
    (hlinked : ∀ r ∈ l, Linked offsets r)
    (hinside : ∀ r ∈ l, r.jumpLocation + r.jumpSize.inBytes ≤ bytecode.length) :
    ∃ linked, l.foldlM (link offsets) bytecode = some linked := by
  induction l generalizing bytecode with
  | nil => exact ⟨bytecode, rfl⟩
  | cons r l ih =>
    obtain ⟨⟨offset, hoffset, hlt⟩, hfits⟩ := hlinked r List.mem_cons_self
    have hr := hinside r List.mem_cons_self
    have hlink : link offsets bytecode r =
        some (overwrite bytecode r.jumpLocation (content offsets r)) := by
      rw [distance, hoffset, Option.getD_some] at hfits
      simp only [link, content, distance, hoffset, if_pos hlt, Option.getD_some]
      exact if_pos ⟨hfits, hr⟩
    have hlength := length_overwrite ((length_content offsets r).symm ▸ hr)
    obtain ⟨linked, hrest⟩ := ih (fun q hq => hlinked q (List.mem_cons_of_mem _ hq)) fun q hq =>
      hlength.symm ▸ hinside q (List.mem_cons_of_mem _ hq)
    exact ⟨linked, by rw [List.foldlM_cons, hlink]; exact hrest⟩

theorem Placed.inside {offset : Nat} (h : Placed offset ps) {r : LinkRecord}
    (hr : r ∈ Piece.slots ps) :
    r.jumpLocation + r.jumpSize.inBytes ≤ offset + (Piece.fill blank ps).length := by
  induction ps generalizing offset with
  | nil => cases hr
  | cons p ps ih =>
    cases p with
    | byte b =>
      have := ih (show Placed (offset + 1) ps from h) hr
      rw [Piece.fill, List.length_cons]
      omega
    | slot q =>
      obtain ⟨hplace, hrest⟩ : q.jumpLocation = offset ∧
        Placed (offset + q.jumpSize.inBytes) ps := h
      rw [Piece.fill, List.length_append, length_blank]
      rcases List.mem_cons.1 hr with rfl | hr
      · omega
      · have := ih hrest hr
        omega

/-- The compilation of a well-formed DFA goes through: all jumps fit the sizes that were chosen for
them, no node is longer than the space for it, and no node starts later than it would without
compaction. -/
theorem compile_of_maxBytecodeSize {dfa : DFA} (wf : dfa.WellFormed)
    (hsmall : maxBytecodeSize dfa < 2 ^ 31) :
    (compile dfa).isSome = true ∧
    (∀ r ∈ (emitNodes dfa).linkRecords, Linked (emitNodes dfa).nodeStartOffsets r) ∧
    (∀ done i rest node, order dfa = done ++ i :: rest → dfa.nodes[i]? = some node →
      (emitFirst dfa (done ++ [i])).bytecode.length ≤
        (emitFirst dfa done).bytecode.length + compiledNodeMaxBytecodeSize node) ∧
    ∀ i offset, (emitNodes dfa).nodeStartOffsets i = some offset →
      offset ≤ maxNodeStartOffset dfa i := by
  have hspaced := spaced_emitNodes wf hsmall
  have hlinked := linked_emitNodes wf hsmall
  refine ⟨?_, hlinked, ?_, fun i offset hi => (hspaced.offsets i offset hi).2.1⟩
  · obtain ⟨ps, hps⟩ := hspaced.emitted
    have hinside : ∀ r ∈ (emitNodes dfa).linkRecords,
        r.jumpLocation + r.jumpSize.inBytes ≤ (emitNodes dfa).bytecode.length := fun r hr => by
      rw [hps.linkRecords] at hr
      rw [hps.bytecode]
      simpa using Placed.inside hps.placed hr
    obtain ⟨linked, hlink⟩ := exists_foldlM_link hlinked hinside
    have hlength := hspaced.length
    rw [← maxBytecodeSize] at hlength
    simp only [compile]
    rw [if_pos (by omega), hlink]
    rfl
  · intro done i rest node horder hnode
    have hfirst := spaced_emitFirst wf hsmall horder
    rw [emitFirst, List.foldl_append, ← emitFirst]
    simp only [List.foldl_cons, List.foldl_nil]
    by_cases hlive : node.isKilled = true
    · rw [State.compileNode, hnode]
      simp [hlive]
    · have hlive : node.isKilled = false := by simpa using hlive
      obtain ⟨-, added, hadded, hmax, -⟩ := compileNode_adds
        (decide (i = dfa.root)) hfirst.emitted hnode hlive (wf.nodes i node hnode hlive)
      rw [hadded, compiledNodeMaxBytecodeSize, hlive]
      simpa using hmax

/-- A root with the actions 7 and 8, a table for a and b, and a range from 0 to 9 that leads to node
2. -/
def smallDFA : DFA :=
  ⟨[⟨[7, 8], [(⟨48, 57⟩, 2), (⟨97, 97⟩, 1), (⟨98, 98⟩, 0)], false⟩, ⟨[], [], false⟩,
    ⟨[9], [(⟨0, 127⟩, 0)], false⟩], 0⟩

theorem smallDFA_wellFormed : smallDFA.WellFormed := by
  have hzero : smallDFA.Live 0 := ⟨_, rfl, rfl⟩
  have hone : smallDFA.Live 1 := ⟨_, rfl, rfl⟩
  have htwo : smallDFA.Live 2 := ⟨_, rfl, rfl⟩
  refine ⟨hzero, fun i node hnode _ => ?_⟩
  have hmem := List.mem_of_getElem? hnode
  simp only [smallDFA, List.mem_cons, List.not_mem_nil, or_false] at hmem
  rcases hmem with rfl | rfl | rfl
  · exact ⟨⟨by simp, by simp, by simp [hzero, hone, htwo]⟩, by simp, by simp⟩
  · exact ⟨⟨by simp, by simp, by simp⟩, by simp, by simp⟩
  · exact ⟨⟨by simp, by simp, by simp [hzero]⟩, by simp, by simp⟩

theorem compile_smallDFA : maxBytecodeSize smallDFA = 44 ∧ (compile smallDFA).isSome = true :=
  ⟨by decide +kernel, (compile_of_maxBytecodeSize smallDFA_wellFormed (by decide +kernel)).1⟩

end DFABytecodeCompiler

end Odyssey.ContentExtensions
