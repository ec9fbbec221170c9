import Odyssey.ContentExtensions.DFABytecodeCorrect

/-!
# The actions a URL meets

`interpret` on the bytecode of an automaton, together with `actionsMatchingEverything`, returns the
actions of the nodes that the automaton visits on the URL and the end marker, unless a transition on
the end marker is lost: the compiler drops every range that leads to the fallback target, and the
fallback jump is not taken at the end of the URL.
-/
namespace Odyssey.ContentExtensions

open Lib.Bytes DFABytecodeCompiler DFABytecodeInterpreter

/-- The actions in the list whose flags match. -/
def matching (flags : Nat) (actions : List Nat) : Finset Nat :=
  (actions.filter (actionMatches flags)).toFinset

/-- The matching actions on the nodes in the list. -/
def DFA.matchedActions (dfa : DFA) (flags : Nat) (nodes : List Nat) : Finset Nat :=
  matching flags (nodes.flatMap dfa.actionsOf)

@[simp] theorem mem_matching {flags a : Nat} {actions : List Nat} :
    a ∈ matching flags actions ↔ a ∈ actions ∧ actionMatches flags a = true := by
  simp [matching]

@[simp] theorem matching_nil (flags : Nat) : matching flags [] = ∅ := rfl

theorem matching_append (flags : Nat) (k l : List Nat) :
    matching flags (k ++ l) = matching flags k ∪ matching flags l := by
  ext a
  simp [or_and_right]

theorem matching_cons (flags a : Nat) (l : List Nat) (s : Finset Nat) :
    s ∪ matching flags (a :: l) =
      (if actionMatches flags a then insert a s else s) ∪ matching flags l := by
  ext b
  by_cases h : actionMatches flags a = true <;> simp [h] <;> grind

namespace DFABytecodeInterpreter

/-! ## The bytecode of one automaton -/

/-- The bytecode holds the live nodes of the automaton. The start offset of the root lies after its
actions, which are at the start of the bytecode. -/
structure Program (dfa : DFA) (bytecode : List Nat) (offsets : Nat → Option Nat) : Prop where
  header : readLE bytecode 4 0 = bytecode.length
  root : ∀ node, dfa.nodes[dfa.root]? = some node → node.isKilled = false →
    CodeAt bytecode offsets 4 (nodeCode node) ∧ offsets dfa.root = some (4 + actionsLength node)
  live : ∀ i node, dfa.nodes[i]? = some node → node.isKilled = false → ∃ offset,
    offsets i = some offset ∧ CodeAt bytecode offsets offset
      (if i = dfa.root then transitionCode node else nodeCode node)

theorem CodeAt.dropActions {bytecode : List Nat} {offsets : Nat → Option Nat} {location : Nat}
    {actions : List Nat} {rest : List Code}
    (h : CodeAt bytecode offsets location (actions.map .action ++ rest)) :
    CodeAt bytecode offsets (location + (actions.flatMap actionBytes).length) rest := by
  induction actions generalizing location with
  | nil => simpa using h
  | cons a actions ih =>
    cases h with
    | cons size hat hlinked hrest =>
      have := ih hrest
      simp only [Code.length] at this
      simpa [Nat.add_assoc] using this

theorem program_of_compile {dfa : DFA} {bytecode : List Nat} (h : compile dfa = some bytecode) :
    Program dfa bytecode (emitNodes dfa).nodeStartOffsets := by
  obtain ⟨ps, inv, hlinked, hbytecode, hlength⟩ := compile_eq_some h
  set offsets := (emitNodes dfa).nodeStartOffsets with hoffsets
  have hcode : ∀ location codes, Holds ps location codes →
      CodeAt bytecode offsets location codes := by
    rintro location codes ⟨before, qs, after, rfl, hlocation, hlays⟩
    have hslots : ∀ r ∈ Piece.slots qs, Linked offsets r := fun r hr => hlinked r (by
      simp only [Piece.slots_append, List.mem_append]
      exact .inl (.inr hr))
    have := codeAt_of_lays hlays hslots
      (littleEndian 4 bytecode.length ++ Piece.fill (content offsets) before)
      (Piece.fill (content offsets) after) (by
        rw [List.length_append, length_littleEndian, hlocation,
          Piece.length_fill (length_content offsets) length_blank])
    rw [Piece.fill_append, Piece.fill_append] at hbytecode
    rw [hbytecode]
    simpa only [List.append_assoc] using this
  have hroot : ∀ node, dfa.nodes[dfa.root]? = some node → node.isKilled = false →
      CodeAt bytecode offsets 4 (nodeCode node) ∧
        offsets dfa.root = some (4 + actionsLength node) := by
    intro node hnode hkilled
    obtain ⟨offset, hoffset⟩ :=
      Option.ne_none_iff_exists'.1 (emitNodes_offset_ne_none ⟨node, hnode, hkilled⟩)
    obtain ⟨node', hnode', -, hat⟩ := inv.nodes _ offset hoffset
    rw [hnode] at hnode'
    cases hnode'
    rw [if_pos rfl] at hat
    exact ⟨hcode _ _ hat.1, by rw [hoffsets, hoffset, hat.2]⟩
  refine ⟨?_, hroot, ?_⟩
  · have hat := at_of_append [] (littleEndian 4 bytecode.length)
      (Piece.fill (content offsets) ps)
    rw [List.nil_append, ← hbytecode, List.length_nil] at hat
    rw [readLE_of_at hat]
    exact Nat.mod_eq_of_lt (by omega)
  · intro i node hnode hkilled
    by_cases hi : i = dfa.root
    · subst hi
      obtain ⟨hat, hoffset⟩ := hroot node hnode hkilled
      rw [if_pos rfl]
      exact ⟨_, hoffset, hat.dropActions⟩
    · obtain ⟨offset, hoffset⟩ :=
        Option.ne_none_iff_exists'.1 (emitNodes_offset_ne_none ⟨node, hnode, hkilled⟩)
      obtain ⟨node', hnode', -, hat⟩ := inv.nodes _ offset hoffset
      rw [hnode] at hnode'
      cases hnode'
      rw [if_neg hi] at hat ⊢
      exact ⟨offset, hoffset, hcode _ _ hat⟩

/-! ## From node to node -/

section Runs

variable {bytecode url : List Nat} {offsets : Nat → Option Nat} {flags : Nat} {m : Machine}
  {result : Finset Nat} {dfa : DFA}

theorem Runs.actions {actions : List Nat} {rest : List Code}
    (hat : CodeAt bytecode offsets m.programCounter (actions.map .action ++ rest))
    (hactions : ∀ a ∈ actions, a < 2 ^ 49)
    (h : ∀ programCounter, CodeAt bytecode offsets programCounter rest →
      Runs bytecode url flags { m with
        programCounter := programCounter
        actions := m.actions ∪ matching flags actions } result) :
    Runs bytecode url flags m result := by
  induction actions generalizing m with
  | nil => simpa [matching] using h m.programCounter hat
  | cons a actions ih =>
    obtain ⟨size, hexec, hrest⟩ := CodeAt.uncons hat
    have hbytes := hexec.bytes
    rw [Code.pieces, Piece.fill_map_byte] at hbytes
    refine Runs.next (step_action (hactions a List.mem_cons_self) hbytes) ?_
    refine ih hrest (fun b hb => hactions b (List.mem_cons_of_mem _ hb)) fun pc hpc => ?_
    have := h pc hpc
    rwa [matching_cons] at this

/-- The actions met on entering a node by a jump: the root is entered after its actions. -/
def entered (dfa : DFA) (i : Nat) : List Nat := if i = dfa.root then [] else dfa.actionsOf i

theorem Runs.enter (hprogram : Program dfa bytecode offsets) (wf : dfa.WellFormed) {i : Nat}
    {node : DFANode} (hnode : dfa.nodes[i]? = some node) (hkilled : node.isKilled = false)
    (hpc : m.programCounter = (offsets i).getD 0)
    (h : ∀ programCounter, CodeAt bytecode offsets programCounter (transitionCode node) →
      Runs bytecode url flags { m with
        programCounter := programCounter
        actions := m.actions ∪ matching flags (entered dfa i) } result) :
    Runs bytecode url flags m result := by
  obtain ⟨offset, hoffset, hat⟩ := hprogram.live i node hnode hkilled
  rw [hoffset, Option.getD_some] at hpc
  rw [← hpc] at hat
  unfold entered at h
  by_cases hi : i = dfa.root
  · rw [if_pos hi] at hat h
    simpa [matching] using h _ hat
  · rw [if_neg hi] at hat h
    refine Runs.actions hat (wf.nodes i node hnode hkilled).actions ?_
    simpa [DFA.actionsOf, hnode] using h

/-- The automaton as it was compiled. -/
def compiledDFANext (dfa : DFA) (i c : Nat) : Option Nat :=
  (dfa.nodes[i]?).bind fun node => compiledNext node c

theorem compiledNext_live {node : DFANode} (wf : node.WellFormed dfa) {c j : Nat}
    (h : compiledNext node c = some j) : dfa.Live j := by
  unfold compiledNext at h
  cases hchecked : checkedNext node c with
  | some target =>
    simp only [hchecked, Option.some.injEq] at h
    subst h
    unfold checkedNext at hchecked
    cases hnext : node.next c with
    | none => simp [hnext] at hchecked
    | some t =>
      rw [hnext] at hchecked
      have : t = target := by
        by_cases hf : fallback node = some t <;> simp_all
      exact DFANode.next_live wf.toHasTransitions (this ▸ hnext)
  | none =>
    simp only [hchecked] at h
    split_ifs at h with hc
    unfold fallback at h
    split_ifs at h with hcan
    obtain ⟨t, ht, htarget⟩ := DFANode.bestFallbackTarget_mem hcan
    cases h
    exact htarget ▸ wf.targets t ht

theorem transitionCode_eq_cons (node : DFANode) :
    ∃ code rest, transitionCode node = code :: rest ∧ Code.IsTransition code := by
  unfold transitionCode lastCode
  cases (transitions node).jumpTables with
  | cons t l => exact ⟨_, _, rfl, trivial⟩
  | nil =>
    cases (transitions node).ranges with
    | cons r l => exact ⟨_, _, rfl, trivial⟩
    | nil =>
      refine ⟨_, _, rfl, ?_⟩
      cases fallback node <;> trivial

theorem Runs.afterEnd {node : DFANode}
    (hat : CodeAt bytecode offsets m.programCounter (transitionCode node))
    (hend : m.urlIndexIsAfterEndOfString = true) :
    Runs bytecode url flags m m.actions := by
  obtain ⟨code, rest, hcode, htransition⟩ := transitionCode_eq_cons node
  rw [hcode] at hat
  obtain ⟨size, hexec, -⟩ := CodeAt.uncons hat
  exact Runs.done (step_afterEnd hexec htransition hend)

theorem matching_union_flatMap_cons (flags : Nat) (s : Finset Nat) (f : Nat → List Nat) (i : Nat)
    (l : List Nat) : s ∪ matching flags ((i :: l).flatMap f) =
      s ∪ matching flags (f i) ∪ matching flags (l.flatMap f) := by
  rw [List.flatMap_cons, matching_append, Finset.union_assoc]

/-- From the start of a node, with the characters `l` of the URL ahead, the actions of the nodes
visited on `l` and the end marker are added. -/
theorem Runs.visits (hprogram : Program dfa bytecode offsets) (wf : dfa.WellFormed)
    (hurl : ∀ c ∈ url, 0 < c ∧ c < 128) {l : List Nat} (hl : url.drop m.urlIndex = l) {i : Nat}
    (hlive : dfa.Live i) (hpc : m.programCounter = (offsets i).getD 0)
    (hend : m.urlIndexIsAfterEndOfString = false) :
    Runs bytecode url flags m (m.actions ∪
      matching flags ((ContentExtensions.visits (compiledDFANext dfa) i (l ++ [0])).flatMap
        (entered dfa))) := by
  induction l generalizing m i with
  | nil =>
    obtain ⟨node, hnode, hkilled⟩ := hlive
    have wfNode := wf.nodes i node hnode hkilled
    have hchar : charAt url m.urlIndex = 0 := by
      rw [charAt, List.getD, List.getElem?_eq_none (List.drop_eq_nil_iff.1 hl), Option.getD_none]
    refine Runs.enter hprogram wf hnode hkilled hpc fun pc hat => ?_
    rw [List.nil_append, ContentExtensions.visits, matching_union_flatMap_cons]
    cases hnext : compiledNext node 0 with
    | none =>
      have hnone : compiledDFANext dfa i 0 = none := by simp [compiledDFANext, hnode, hnext]
      rw [hnone]
      simp only [List.flatMap_nil, matching_nil, Finset.union_empty]
      exact Runs.noTransition wfNode hat hend hchar (by omega) hnext
    | some j =>
      have hsome : compiledDFANext dfa i 0 = some j := by simp [compiledDFANext, hnode, hnext]
      rw [hsome]
      obtain ⟨node', hnode', hkilled'⟩ := compiledNext_live wfNode hnext
      refine Runs.transition wfNode hat hend hchar (by omega) hnext ?_
      refine Runs.enter hprogram wf hnode' hkilled' rfl fun pc' hat' => ?_
      simpa [Machine.moveTo, ContentExtensions.visits] using Runs.afterEnd hat' rfl
  | cons c l ih =>
    obtain ⟨node, hnode, hkilled⟩ := hlive
    have wfNode := wf.nodes i node hnode hkilled
    have hget : url[m.urlIndex]? = some c := by
      have := congrArg List.head? hl
      simpa [List.head?_drop] using this
    obtain ⟨hpos, hascii⟩ := hurl c (List.mem_of_getElem? hget)
    have hchar : charAt url m.urlIndex = c := by simp [charAt, List.getD, hget]
    refine Runs.enter hprogram wf hnode hkilled hpc fun pc hat => ?_
    rw [List.cons_append, ContentExtensions.visits, matching_union_flatMap_cons]
    cases hnext : compiledNext node c with
    | none =>
      have hnone : compiledDFANext dfa i c = none := by simp [compiledDFANext, hnode, hnext]
      rw [hnone]
      simp only [List.flatMap_nil, matching_nil, Finset.union_empty]
      exact Runs.noTransition wfNode hat hend hchar hascii hnext
    | some j =>
      have hsome : compiledDFANext dfa i c = some j := by simp [compiledDFANext, hnode, hnext]
      rw [hsome]
      refine Runs.transition wfNode hat hend hchar hascii hnext ?_
      have hdrop : url.drop (m.urlIndex + 1) = l := by
        rw [← List.drop_drop, hl, List.drop_one, List.tail_cons]
      exact ih hdrop (compiledNext_live wfNode hnext) rfl (by simp [Machine.moveTo]; omega)

end Runs

/-! ## The actions of the root -/

def IsAppendInstruction : DFABytecodeInstruction → Bool
  | .appendAction | .appendActionWithIfDomain | .testFlagsAndAppendAction
  | .testFlagsAndAppendActionWithIfDomain => true
  | _ => false

section Root

variable {bytecode : List Nat} {offsets : Nat → Option Nat} {flags programCounter : Nat}
  {node : DFANode} {actions : List Nat} {found : Finset Nat}

theorem getInstruction_of_transitionCode
    (hat : CodeAt bytecode offsets programCounter (transitionCode node)) :
    programCounter < bytecode.length ∧ ∃ instruction,
      getInstruction bytecode programCounter = some instruction ∧
      IsAppendInstruction instruction = false := by
  obtain ⟨code, rest, hcode, htransition⟩ := transitionCode_eq_cons node
  rw [hcode] at hat
  cases hat with
  | cons size hat hlinked hrest =>
    cases code with
    | action a => exact htransition.elim
    | terminate => exact ⟨hat.lt_length, _, getInstruction_of_at hat, rfl⟩
    | jump target => exact ⟨hat.lt_length, _, getInstruction_of_at_opcode hat, rfl⟩
    | table t =>
      refine ⟨hat.lt_length, _, getInstruction_of_at_opcode hat, ?_⟩
      split_ifs <;> rfl
    | range r =>
      simp only [Code.pieces] at hat
      by_cases hsingle : r.min = r.max
      · rw [if_pos hsingle] at hat
        refine ⟨hat.lt_length, _, getInstruction_of_at_opcode hat, ?_⟩
        split_ifs <;> rfl
      · rw [if_neg hsingle] at hat
        refine ⟨hat.lt_length, _, getInstruction_of_at_opcode hat, ?_⟩
        split_ifs <;> rfl

theorem lt_length_of_actionBytes {a : Nat} (hat : At bytecode programCounter (actionBytes a)) :
    programCounter < bytecode.length := by
  unfold actionBytes at hat
  split_ifs at hat <;> exact hat.lt_length

theorem skipRootActions_action {a : Nat} (ha : a < 2 ^ 49)
    (hat : At bytecode programCounter (actionBytes a)) (fuel : Nat) :
    skipRootActions bytecode flags bytecode.length (fuel + 1) programCounter found =
      skipRootActions bytecode flags bytecode.length fuel
        (programCounter + (actionBytes a).length)
        (if actionFlags a ≠ 0 ∧ actionMatches flags a = true then insert a found else found) := by
  have hread := readLE_actionBytes ha hat
  rw [length_actionBytes, skipRootActions, if_pos (lt_length_of_actionBytes hat)]
  by_cases hzero : actionFlags a = 0
  · rw [if_pos hzero] at hread
    rw [hread.1]
    cases hasIfDomainFlag a <;> simp [hzero]
  · rw [if_neg hzero] at hread
    obtain ⟨hinstruction, hflags, haction⟩ := hread
    rw [hinstruction]
    cases hdomain : hasIfDomainFlag a <;> rw [hdomain] at haction <;>
      simp [hzero, interpretTestFlagsAndAppendAction, hflags, haction, actionMatches]

theorem everythingLoop_action {a : Nat} (ha : a < 2 ^ 49)
    (hat : At bytecode programCounter (actionBytes a)) (fuel : Nat) :
    everythingLoop bytecode bytecode.length (fuel + 1) programCounter found =
      everythingLoop bytecode bytecode.length fuel (programCounter + (actionBytes a).length)
        (if actionFlags a = 0 then insert a found else found) := by
  have hread := readLE_actionBytes ha hat
  rw [length_actionBytes, everythingLoop, if_pos (lt_length_of_actionBytes hat)]
  by_cases hzero : actionFlags a = 0
  · rw [if_pos hzero] at hread
    obtain ⟨hinstruction, haction⟩ := hread
    rw [hinstruction]
    cases hdomain : hasIfDomainFlag a <;> rw [hdomain] at haction <;>
      simp [hzero, interpretAppendAction, haction]
  · rw [if_neg hzero] at hread
    rw [hread.1]
    cases hasIfDomainFlag a <;> simp [hzero]

/-- The loop of `interpret` over the actions of the root collects those with matching flags. -/
theorem skipRootActions_eq
    (hat : CodeAt bytecode offsets programCounter (actions.map .action ++ transitionCode node))
    (hactions : ∀ a ∈ actions, a < 2 ^ 49) {fuel : Nat} (hfuel : actions.length < fuel) :
    skipRootActions bytecode flags bytecode.length fuel programCounter found =
      some (programCounter + (actions.flatMap actionBytes).length,
        found ∪ matching flags (actions.filter (actionFlags · ≠ 0))) := by
  induction actions generalizing programCounter found fuel with
  | nil =>
    obtain ⟨fuel, rfl⟩ : ∃ k, fuel = k + 1 := ⟨fuel - 1, by omega⟩
    rw [List.map_nil, List.nil_append] at hat
    obtain ⟨hlt, instruction, hinstruction, happend⟩ := getInstruction_of_transitionCode hat
    rw [skipRootActions, if_pos hlt, hinstruction]
    cases instruction <;> simp [IsAppendInstruction] at happend ⊢
  | cons a actions ih =>
    rw [List.length_cons] at hfuel
    obtain ⟨fuel, rfl⟩ : ∃ k, fuel = k + 1 := ⟨fuel - 1, by omega⟩
    cases hat with
    | cons size hat hlinked hrest =>
      simp only [Code.pieces, Piece.fill_map_byte] at hat
      simp only [Code.length] at hrest
      rw [skipRootActions_action (hactions a List.mem_cons_self) hat,
        ih hrest (fun b hb => hactions b (List.mem_cons_of_mem _ hb)) (by omega),
        List.flatMap_cons, List.length_append, Nat.add_assoc]
      congr 2
      ext b
      by_cases hzero : actionFlags a = 0
      · simp [hzero]
      · by_cases hmatches : actionMatches flags a = true <;> simp [hzero, hmatches] <;> grind

/-- `actionsMatchingEverything` collects the actions of the root without flags. -/
theorem everythingLoop_eq
    (hat : CodeAt bytecode offsets programCounter (actions.map .action ++ transitionCode node))
    (hactions : ∀ a ∈ actions, a < 2 ^ 49) {fuel : Nat} (hfuel : actions.length < fuel) :
    everythingLoop bytecode bytecode.length fuel programCounter found =
      some (found ∪ (actions.filter (actionFlags · = 0)).toFinset) := by
  induction actions generalizing programCounter found fuel with
  | nil =>
    obtain ⟨fuel, rfl⟩ : ∃ k, fuel = k + 1 := ⟨fuel - 1, by omega⟩
    rw [List.map_nil, List.nil_append] at hat
    obtain ⟨hlt, instruction, hinstruction, happend⟩ := getInstruction_of_transitionCode hat
    rw [everythingLoop, if_pos hlt, hinstruction]
    cases instruction <;> simp [IsAppendInstruction] at happend ⊢
  | cons a actions ih =>
    rw [List.length_cons] at hfuel
    obtain ⟨fuel, rfl⟩ : ∃ k, fuel = k + 1 := ⟨fuel - 1, by omega⟩
    cases hat with
    | cons size hat hlinked hrest =>
      simp only [Code.pieces, Piece.fill_map_byte] at hat
      simp only [Code.length] at hrest
      rw [everythingLoop_action (hactions a List.mem_cons_self) hat,
        ih hrest (fun b hb => hactions b (List.mem_cons_of_mem _ hb)) (by omega)]
      congr 1
      ext b
      by_cases hzero : actionFlags a = 0 <;> simp [hzero]

end Root

/-! ## Whole runs -/

theorem actionMatches_of_actionFlags_eq_zero {flags a : Nat} (h : actionFlags a = 0) :
    actionMatches flags a = true := by simp [actionMatches, h]

/-- The actions of the root, split between the two functions, and those of the other nodes. -/
theorem union_matching_entered (dfa : DFA) (flags : Nat) {nodes : List Nat}
    (hroot : dfa.root ∈ nodes) :
    matching flags ((dfa.actionsOf dfa.root).filter (actionFlags · ≠ 0)) ∪
      matching flags (nodes.flatMap (entered dfa)) ∪
      ((dfa.actionsOf dfa.root).filter (actionFlags · = 0)).toFinset =
    dfa.matchedActions flags nodes := by
  ext a
  simp only [Finset.mem_union, mem_matching, List.mem_filter, List.mem_toFinset, List.mem_flatMap,
    DFA.matchedActions, decide_eq_true_eq, entered]
  constructor
  · rintro ((⟨⟨ha, -⟩, hmatches⟩ | ⟨⟨i, hi, ha⟩, hmatches⟩) | ⟨ha, hzero⟩)
    · exact ⟨⟨_, hroot, ha⟩, hmatches⟩
    · split_ifs at ha
      · simp at ha
      · exact ⟨⟨i, hi, ha⟩, hmatches⟩
    · exact ⟨⟨_, hroot, ha⟩, actionMatches_of_actionFlags_eq_zero hzero⟩
  · rintro ⟨⟨i, hi, ha⟩, hmatches⟩
    by_cases hir : i = dfa.root
    · subst hir
      by_cases hzero : actionFlags a = 0
      · exact .inr ⟨ha, hzero⟩
      · exact .inl (.inl ⟨⟨ha, hzero⟩, hmatches⟩)
    · exact .inl (.inr ⟨⟨i, hi, by rwa [if_neg hir]⟩, hmatches⟩)

theorem mem_visits (next : Nat → Nat → Option Nat) (i : Nat) (l : List Nat) :
    i ∈ visits next i l := by
  cases l <;> simp [visits]

/-- What the two functions return together is what the compiled automaton meets. -/
theorem interpret_eq_compiled {dfa : DFA} {bytecode url : List Nat} {flags : Nat}
    (wf : dfa.WellFormed) (hurl : ∀ c ∈ url, 0 < c ∧ c < 128)
    (hcompile : compile dfa = some bytecode) :
    ∃ n found everything, (∀ fuel, n ≤ fuel → interpret bytecode url flags fuel = some found ∧
        actionsMatchingEverything bytecode fuel = some everything) ∧
      found ∪ everything =
        dfa.matchedActions flags (visits (compiledDFANext dfa) dfa.root (url ++ [0])) := by
  have hprogram := program_of_compile hcompile
  set offsets := (emitNodes dfa).nodeStartOffsets
  obtain ⟨node, hnode, hkilled⟩ := wf.root
  obtain ⟨hat, hoffset⟩ := hprogram.root node hnode hkilled
  have wfNode := wf.nodes _ node hnode hkilled
  have hactions : dfa.actionsOf dfa.root = node.actions := by simp [DFA.actionsOf, hnode]
  have hpc := (getInstruction_of_transitionCode hat.dropActions).1
  have hpos : 0 < bytecode.length := by omega
  -- The root is left with its flagged actions; from there on the nodes are visited.
  have hruns : ∀ found, Runs bytecode url flags ⟨4 + actionsLength node, 0, false, found⟩
      (found ∪ matching flags ((visits (compiledDFANext dfa) dfa.root (url ++ [0])).flatMap
        (entered dfa))) := fun found =>
    Runs.visits hprogram wf hurl rfl ⟨node, hnode, hkilled⟩ (by rw [hoffset, Option.getD_some]) rfl
  obtain ⟨n, hrun⟩ := hruns (matching flags (node.actions.filter (actionFlags · ≠ 0)))
  refine ⟨n + node.actions.length + 2, _, _, fun fuel hfuel => ⟨?_, ?_⟩,
    by rw [← union_matching_entered dfa flags (mem_visits _ _ _), hactions]⟩
  · obtain ⟨fuel, rfl⟩ : ∃ k, fuel = k + 2 := ⟨fuel - 2, by omega⟩
    rw [interpret, interpretFrom, if_pos hpos, hprogram.header, if_pos rfl, Nat.zero_add,
      skipRootActions_eq hat wfNode.actions (by omega)]
    simp only [Option.bind_eq_bind, Option.bind_some, Finset.empty_union]
    rw [if_neg (by omega), ← actionsLength, hrun (fuel + 2) (by omega)]
    simp [interpretFrom]
  · rw [actionsMatchingEverything, hprogram.header,
      everythingLoop_eq hat wfNode.actions (by omega), Finset.empty_union]

end DFABytecodeInterpreter

/-! ## The lost transition -/

/-- A transition on the end marker to the fallback target. It has no instruction of its own. -/
def DFANode.droppedEndTransition (node : DFANode) : Option Nat :=
  (node.next 0).filter fun target =>
    node.canUseFallbackTransition && decide (target = node.bestFallbackTarget)

/-- The automaton reads the URL up to a node that dropped its transition on the end marker, and the
target of the transition has matching actions that no node before it has. -/
def DFA.LosesEndTransition (dfa : DFA) (flags : Nat) (url : List Nat) : Prop :=
  ∃ i node target, url.foldlM dfa.next dfa.root = some i ∧ dfa.nodes[i]? = some node ∧
    node.droppedEndTransition = some target ∧
    ¬ dfa.matchedActions flags [target] ⊆ dfa.matchedActions flags (visits dfa.next dfa.root url)

theorem visits_append_singleton (next : Nat → Nat → Option Nat) (i c : Nat) (l : List Nat) :
    visits next i (l ++ [c]) = visits next i l ++ ((l.foldlM next i).bind (next · c)).toList := by
  induction l generalizing i with
  | nil => cases h : next i c <;> simp [visits, h]
  | cons a l ih => cases h : next i a <;> simp [visits, h, ih]

theorem DFA.matchedActions_append (dfa : DFA) (flags : Nat) (k l : List Nat) :
    dfa.matchedActions flags (k ++ l) =
      dfa.matchedActions flags k ∪ dfa.matchedActions flags l := by
  rw [DFA.matchedActions, List.flatMap_append, matching_append]
  rfl

section Lost

variable {dfa : DFA} {url : List Nat} {i : Nat}

theorem DFA.next_eq {node : DFANode} (hnode : dfa.nodes[i]? = some node) (c : Nat) :
    dfa.next i c = node.next c := by simp [DFA.next, hnode]

theorem compiledDFANext_eq (wf : dfa.WellFormed) (hlive : dfa.Live i) {c : Nat} (hpos : 0 < c)
    (hc : c < 128) : compiledDFANext dfa i c = dfa.next i c := by
  obtain ⟨node, hnode, hkilled⟩ := hlive
  rw [dfa.next_eq hnode, ← compiledNext_eq (wf.nodes i node hnode hkilled) hpos hc]
  simp [compiledDFANext, hnode]

theorem DFA.next_live (wf : dfa.WellFormed) (hlive : dfa.Live i) {c j : Nat}
    (h : dfa.next i c = some j) : dfa.Live j := by
  obtain ⟨node, hnode, hkilled⟩ := hlive
  rw [dfa.next_eq hnode] at h
  exact DFANode.next_live (wf.nodes i node hnode hkilled).toHasTransitions h

/-- Before the end marker the compiled automaton visits the same nodes. -/
theorem visits_compiledDFANext (wf : dfa.WellFormed) (hurl : ∀ c ∈ url, 0 < c ∧ c < 128)
    (hlive : dfa.Live i) :
    visits (compiledDFANext dfa) i url = visits dfa.next i url ∧
      url.foldlM (compiledDFANext dfa) i = url.foldlM dfa.next i := by
  induction url generalizing i with
  | nil => exact ⟨rfl, rfl⟩
  | cons c url ih =>
    obtain ⟨⟨hpos, hc⟩, hrest⟩ := List.forall_mem_cons.1 hurl
    have heq := compiledDFANext_eq wf hlive hpos hc
    simp only [visits, List.foldlM_cons, heq]
    cases hnext : dfa.next i c with
    | none => simp
    | some j =>
      obtain ⟨hvisits, hfold⟩ := ih hrest (DFA.next_live wf hlive hnext)
      simp [hvisits, hfold]

theorem DFA.foldlM_live (wf : dfa.WellFormed) (hlive : dfa.Live i) {j : Nat}
    (h : url.foldlM dfa.next i = some j) : dfa.Live j := by
  induction url generalizing i with
  | nil =>
    cases h
    exact hlive
  | cons c url ih =>
    rw [List.foldlM_cons] at h
    obtain ⟨k, hk, hrest⟩ := Option.bind_eq_some_iff.1 h
    exact ih (DFA.next_live wf hlive hk) hrest

theorem checkedNext_zero (node : DFANode) : checkedNext node 0 =
    if node.droppedEndTransition.isSome then none else node.next 0 := by
  unfold checkedNext DFANode.droppedEndTransition fallback
  cases hnext : node.next 0 with
  | none => simp
  | some j =>
    by_cases hcan : node.canUseFallbackTransition = true
    · by_cases hj : j = node.bestFallbackTarget
      · simp [hcan, hj, Option.filter]
      · simp [hcan, hj, Option.filter, Ne.symm hj]
    · simp [hcan, Option.filter]

/-- The bytecode finds the actions of the automaton, except for those lost at the end marker. -/
theorem matchedActions_compiled_eq_iff (wf : dfa.WellFormed) (flags : Nat)
    (hurl : ∀ c ∈ url, 0 < c ∧ c < 128) :
    dfa.matchedActions flags (visits (compiledDFANext dfa) dfa.root (url ++ [0])) =
      dfa.matchedActions flags (visits dfa.next dfa.root (url ++ [0])) ↔
    ¬ dfa.LosesEndTransition flags url := by
  obtain ⟨hvisits, hfold⟩ := visits_compiledDFANext wf hurl wf.root
  rw [visits_append_singleton, visits_append_singleton, hvisits, hfold,
    DFA.matchedActions_append, DFA.matchedActions_append]
  cases hreached : url.foldlM dfa.next dfa.root with
  | none => simp [DFA.LosesEndTransition, hreached]
  | some i =>
    obtain ⟨node, hnode, -⟩ := DFA.foldlM_live wf wf.root hreached
    have hcompiled : compiledDFANext dfa i 0 =
        if node.droppedEndTransition.isSome then none else node.next 0 := by
      simp only [compiledDFANext, hnode, Option.bind_some]
      rw [compiledNext_zero, checkedNext_zero]
    simp only [Option.bind_some, hcompiled, dfa.next_eq hnode]
    have hloses : dfa.LosesEndTransition flags url ↔ ∃ target,
        node.droppedEndTransition = some target ∧ ¬ dfa.matchedActions flags [target] ⊆
          dfa.matchedActions flags (visits dfa.next dfa.root url) := by
      simp [DFA.LosesEndTransition, hreached, hnode]
    rw [hloses]
    cases hdropped : node.droppedEndTransition with
    | none => simp
    | some target =>
      have hnext : node.next 0 = some target := (Option.filter_eq_some_iff.1 hdropped).1
      simp [hnext, DFA.matchedActions]

/-- Compilation preserves the meaning of an automaton on a URL exactly when the URL does not end
where a transition on the end marker was dropped. -/
theorem interpret_compile_eq_iff {bytecode : List Nat} {flags : Nat} (wf : dfa.WellFormed)
    (hurl : ∀ c ∈ url, 0 < c ∧ c < 128) (hcompile : compile dfa = some bytecode) :
    ∃ n found everything, (∀ fuel, n ≤ fuel → interpret bytecode url flags fuel = some found ∧
        actionsMatchingEverything bytecode fuel = some everything) ∧
      (found ∪ everything = dfa.matchedActions flags (visits dfa.next dfa.root (url ++ [0])) ↔
        ¬ dfa.LosesEndTransition flags url) := by
  obtain ⟨n, found, everything, hfuel, hfound⟩ := interpret_eq_compiled wf hurl hcompile
  exact ⟨n, found, everything, hfuel, by rw [hfound, matchedActions_compiled_eq_iff wf flags hurl]⟩

end Lost

/-- A root without actions that leads to a node with one action on every character, the end marker
among them. -/
def anyCharacterDFA : DFA := ⟨[⟨[], [(⟨0, 127⟩, 1)], false⟩, ⟨[7], [], false⟩], 0⟩

theorem anyCharacterDFA_wellFormed : anyCharacterDFA.WellFormed := by
  have hlive : anyCharacterDFA.Live 1 := ⟨_, rfl, rfl⟩
  refine ⟨⟨_, rfl, rfl⟩, fun i node hnode _ => ?_⟩
  have hmem := List.mem_of_getElem? hnode
  simp only [anyCharacterDFA, List.mem_cons, List.not_mem_nil, or_false] at hmem
  rcases hmem with rfl | rfl
  · exact ⟨⟨by decide, by decide, by simpa using hlive⟩, by decide, by decide⟩
  · exact ⟨⟨by decide, by decide, by simp⟩, by decide, by decide⟩

theorem compile_anyCharacterDFA :
    compile anyCharacterDFA = some [12, 0, 0, 0, 27, 2, 6, 7, 0, 0, 0, 10] := by decide +kernel

/-- On a URL of one character the action is found. -/
theorem interpret_anyCharacterDFA_one : ¬ anyCharacterDFA.LosesEndTransition 0 [97] ∧
    ∃ n found everything, (∀ fuel, n ≤ fuel →
        interpret [12, 0, 0, 0, 27, 2, 6, 7, 0, 0, 0, 10] [97] 0 fuel = some found ∧
        actionsMatchingEverything [12, 0, 0, 0, 27, 2, 6, 7, 0, 0, 0, 10] fuel = some everything) ∧
      (found ∪ everything = anyCharacterDFA.matchedActions 0
          (visits anyCharacterDFA.next anyCharacterDFA.root ([97] ++ [0])) ↔
        ¬ anyCharacterDFA.LosesEndTransition 0 [97]) := by
  refine ⟨?_, interpret_compile_eq_iff anyCharacterDFA_wellFormed (by decide)
    compile_anyCharacterDFA⟩
  rintro ⟨i, node, target, hreached, hnode, hdropped, -⟩
  have hi : List.foldlM anyCharacterDFA.next anyCharacterDFA.root [97] = some 1 := by decide
  rw [hi] at hreached
  cases hreached
  cases hnode
  have hnone : (⟨[7], [], false⟩ : DFANode).droppedEndTransition = none := by decide
  simp [hnone] at hdropped

/-- On the empty URL the automaton meets the action and the bytecode does not. -/
theorem interpret_anyCharacterDFA_empty :
    anyCharacterDFA.WellFormed ∧
    compile anyCharacterDFA = some [12, 0, 0, 0, 27, 2, 6, 7, 0, 0, 0, 10] ∧
    interpret [12, 0, 0, 0, 27, 2, 6, 7, 0, 0, 0, 10] [] 0 10 = some ∅ ∧
    actionsMatchingEverything [12, 0, 0, 0, 27, 2, 6, 7, 0, 0, 0, 10] 10 = some ∅ ∧
    anyCharacterDFA.matchedActions 0
      (visits anyCharacterDFA.next anyCharacterDFA.root ([] ++ [0])) = {7} :=
  ⟨anyCharacterDFA_wellFormed, compile_anyCharacterDFA, by decide +kernel, by decide +kernel,
    by decide +kernel⟩

end Odyssey.ContentExtensions
