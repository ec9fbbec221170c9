import Odyssey.ContentExtensions.DFABytecodeCompiler

/-!
# What the jump tables and ranges of a node mean

`transitions` turns the transitions of a node into an array of destinations, the array into
ranges, some of them case insensitive, and runs of neighbouring ranges into jump tables. Each of
these steps keeps the function from characters to destinations. Every check that matches a
character has the right destination, so that the order of the checks does not matter.
-/
namespace Odyssey.ContentExtensions

namespace DFABytecodeCompiler

/-- The character as a check looks at it. -/
def foldCase (caseSensitive : Bool) (c : Nat) : Nat :=
  if caseSensitive then c else toASCIILower c

def Range.Matches (r : Range) (c : Nat) : Prop :=
  r.min ≤ foldCase r.caseSensitive c ∧ foldCase r.caseSensitive c ≤ r.max

instance (r : Range) (c : Nat) : Decidable (r.Matches c) :=
  inferInstanceAs (Decidable (_ ∧ _))

def JumpTable.target (t : JumpTable) (c : Nat) : Option Nat :=
  if t.min ≤ foldCase t.caseSensitive c ∧ foldCase t.caseSensitive c ≤ t.max then
    t.destinations[foldCase t.caseSensitive c - t.min]?
  else none

structure Range.WellFormed (d : Destinations) (r : Range) : Prop where
  ordered : r.min ≤ r.max
  ascii : r.max < 128
  sound : ∀ c, c < 128 → r.Matches c → d c = some r.destination

structure JumpTable.WellFormed (d : Destinations) (t : JumpTable) : Prop where
  length : t.min + t.destinations.length = t.max + 1
  nonempty : t.min ≤ t.max
  ascii : t.max < 128
  sound : ∀ c target, c < 128 → t.target c = some target → d c = some target

/-- The tables and the ranges together are the function `d` on characters. -/
structure Represents (d : Destinations) (tables : List JumpTable) (ranges : List Range) : Prop where
  tablesWellFormed : ∀ t ∈ tables, t.WellFormed d
  rangesWellFormed : ∀ r ∈ ranges, r.WellFormed d
  complete : ∀ c target, c < 128 → d c = some target →
    (∃ t ∈ tables, t.target c = some target) ∨ ∃ r ∈ ranges, r.Matches c

/-! ## From transitions to destinations -/

section Fill

variable {l : List (CharRange × Nat)} {fallback : Option Nat} {c : Nat}

theorem fillDestinations_of_not_contains (d : Destinations)
    (h : ∀ t ∈ l, ¬ t.1.Contains c) : fillDestinations fallback d l c = d c := by
  induction l generalizing d with
  | nil => rfl
  | cons a l ih =>
    obtain ⟨range, target⟩ := a
    have hrest := fun d => ih d fun t ht => h t (List.mem_cons_of_mem _ ht)
    have hfirst : ¬ (range.first ≤ c ∧ c ≤ range.last) := h _ List.mem_cons_self
    rw [fillDestinations]
    split_ifs <;> simp [hrest, hfirst]

theorem fillDestinations_eq (hsorted : l.Pairwise fun s t => s.1.last < t.1.first)
    {d : Destinations} (hd : d c = none) : fillDestinations fallback d l c =
      ((l.find? fun t => decide (t.1.Contains c)).map Prod.snd).bind
        fun target => if fallback = some target then none else some target := by
  induction l generalizing d with
  | nil => simpa [fillDestinations] using hd
  | cons a l ih =>
    obtain ⟨range, target⟩ := a
    obtain ⟨hfirst, hrest⟩ := List.pairwise_cons.1 hsorted
    rw [fillDestinations, List.find?_cons]
    by_cases hc : range.Contains c
    · have hnot : ∀ t ∈ l, ¬ t.1.Contains c := by
        intro t ht htc
        have hlt : range.last < t.1.first := hfirst t ht
        exact absurd (hlt.trans_le htc.1) (not_lt.2 hc.2)
      have hin : range.first ≤ c ∧ c ≤ range.last := hc
      split_ifs with hfallback <;>
        simp [hc, hin, hfallback, fillDestinations_of_not_contains _ hnot, hd]
    · have hout : ¬ (range.first ≤ c ∧ c ≤ range.last) := hc
      split_ifs <;> simpa [hc] using ih hrest (by simp [hout, hd])

end Fill

/-! ## From destinations to ranges -/

/-- The ranges are right, and they cover the characters below `bound` and those whose destination
was cleared. -/
structure Covers (d : Destinations) (bound : Nat) (destinations : Destinations)
    (ranges : List Range) : Prop where
  wellFormed : ∀ r ∈ ranges, r.WellFormed d
  sub : ∀ c target, destinations c = some target → d c = some target
  cleared : ∀ c, c < 128 → destinations c ≠ d c → ∃ r ∈ ranges, r.Matches c
  covered : ∀ c, c < bound → c < 128 → d c ≠ none → ∃ r ∈ ranges, r.Matches c

/-- The scan up to the character `i`: the range that has not ended yet has one destination. -/
structure ScanInv (d : Destinations) (i : Nat) (s : Scan) : Prop where
  covers : Covers d (s.rangeMin.getD i) s.destinations s.ranges
  pending : ∀ m, s.rangeMin = some m → m < i ∧ s.destinations m ≠ none ∧
    ∀ c, m ≤ c → c < i → s.destinations c = s.destinations m

theorem toASCIILower_of_upper {c : Nat} (h : 65 ≤ c) (h' : c ≤ 90) : toASCIILower c = c + 32 := by
  simp [toASCIILower, h, h']

theorem toASCIILower_cases (c : Nat) :
    (65 ≤ c ∧ c ≤ 90 ∧ toASCIILower c = c + 32) ∨ (¬ (65 ≤ c ∧ c ≤ 90) ∧ toASCIILower c = c) := by
  unfold toASCIILower
  split_ifs <;> omega

namespace Covers

variable {d destinations : Destinations} {ranges : List Range} {bound : Nat}

theorem append (h : Covers d bound destinations ranges) {destinations' : Destinations} {r : Range}
    {bound' : Nat} (hr : r.WellFormed d)
    (hdest : ∀ c, destinations' c = destinations c ∨ destinations' c = none ∧ r.Matches c)
    (hbound : ∀ c, bound ≤ c → c < bound' → r.Matches c) :
    Covers d bound' destinations' (ranges ++ [r]) := by
  have old : ∀ c, (∃ r ∈ ranges, r.Matches c) → ∃ q ∈ ranges ++ [r], q.Matches c :=
    fun c ⟨q, hq, hqc⟩ => ⟨q, by simp [hq], hqc⟩
  refine ⟨?_, ?_, ?_, ?_⟩
  · intro q hq
    rcases List.mem_append.1 hq with hq | hq
    · exact h.wellFormed q hq
    · rwa [List.mem_singleton.1 hq]
  · intro c target htarget
    rcases hdest c with heq | ⟨heq, -⟩
    · exact h.sub c target (heq ▸ htarget)
    · simp [heq] at htarget
  · intro c hc hne
    rcases hdest c with heq | ⟨-, hm⟩
    · exact old c (h.cleared c hc (heq ▸ hne))
    · exact ⟨r, by simp, hm⟩
  · intro c hlt hc hne
    by_cases hb : c < bound
    · exact old c (h.covered c hb hc hne)
    · exact ⟨r, by simp, hbound c (not_lt.1 hb) hlt⟩

/-- A character without a destination is covered by the ranges, or has none at all. -/
theorem succ (h : Covers d bound destinations ranges) (hnone : destinations bound = none) :
    Covers d (bound + 1) destinations ranges := by
  refine ⟨h.wellFormed, h.sub, h.cleared, fun c hlt hc hne => ?_⟩
  rcases Nat.lt_succ_iff_lt_or_eq.1 hlt with hlt | rfl
  · exact h.covered c hlt hc hne
  · exact h.cleared c hc (by rw [hnone]; exact hne.symm)

end Covers

namespace ScanInv

variable {d : Destinations} {i m : Nat} {s : Scan}

theorem initial : ScanInv d 0 ⟨d, [], none⟩ := by
  refine ⟨⟨?_, ?_, ?_, ?_⟩, ?_⟩ <;> simp

/-- The range that ends before `i` is appended. -/
theorem endRange (inv : ScanInv d i s) (hm : s.rangeMin = some m) (hi : i ≤ 128) :
    Covers d i (s.endRange m (i - 1)).destinations (s.endRange m (i - 1)).ranges := by
  obtain ⟨hlt, hne, hsame⟩ := inv.pending m hm
  obtain ⟨target, htarget⟩ := Option.ne_none_iff_exists'.1 hne
  have hcovers := inv.covers
  rw [hm, Option.getD_some] at hcovers
  have hdest : ∀ c, m ≤ c → c < i → d c = some target := fun c hmc hci =>
    hcovers.sub c target ((hsame c hmc hci).trans htarget)
  unfold Scan.endRange
  rw [htarget, Option.getD_some]
  split_ifs with hfolds
  · obtain ⟨hlow, hhigh, hfold⟩ := hfolds
    rw [toASCIILower_of_upper hlow (by omega), toASCIILower_of_upper (by omega) hhigh]
    have hlower : ∀ c, m + 32 ≤ c → c ≤ i - 1 + 32 → d c = some target := by
      intro c hlo hhi
      have := hfold (c - 32) (List.mem_range'.2 ⟨c - 32 - m, by omega, by omega⟩)
      rw [toASCIILower_of_upper (by omega) (by omega), htarget] at this
      refine hcovers.sub c target ?_
      rw [this]
      congr 1
      omega
    -- A letter of the range matches in both cases, and nothing else does.
    have hmatch : ∀ c, Range.Matches ⟨m + 32, i - 1 + 32, target, false⟩ c ↔
        (m ≤ c ∧ c < i) ∨ (m + 32 ≤ c ∧ c ≤ i - 1 + 32) := by
      intro c
      simp only [Range.Matches, foldCase, Bool.false_eq_true, if_false]
      rcases toASCIILower_cases c with ⟨h1, h2, h⟩ | ⟨h1, h⟩ <;> rw [h] <;> omega
    refine hcovers.append ⟨by simp; omega, by simp; omega, fun c hc hcm => ?_⟩ ?_ ?_
    · rcases (hmatch c).1 hcm with h | h
      · exact hdest c h.1 h.2
      · exact hlower c h.1 h.2
    · intro c
      simp only [hmatch]
      split_ifs with h
      · exact .inr ⟨rfl, .inr h⟩
      · exact .inl rfl
    · exact fun c hmc hci => (hmatch c).2 (.inl ⟨hmc, hci⟩)
  · refine hcovers.append ⟨by simp; omega, by simp; omega, fun c hc hcm => ?_⟩
      (fun c => .inl rfl) fun c hmc hci => ?_
    · simp only [Range.Matches, foldCase, if_true] at hcm
      exact hdest c hcm.1 (by omega)
    · simp only [Range.Matches, foldCase, if_true]
      omega

theorem step (inv : ScanInv d i s) (hi : i < 128) : ScanInv d (i + 1) (s.step i) := by
  unfold Scan.step
  cases hm : s.rangeMin with
  | some m =>
    simp only
    split_ifs with hend hnone
    · exact ⟨(inv.endRange hm hi.le).succ hnone, by simp⟩
    · refine ⟨inv.endRange hm hi.le, fun m' hm' => ?_⟩
      cases hm'
      refine ⟨Nat.lt_succ_self i, hnone, fun c hic hci => ?_⟩
      rw [show c = i by omega]
    · obtain ⟨hlt, hne, hsame⟩ := inv.pending m hm
      refine ⟨by simpa only [hm, Option.getD_some] using inv.covers, fun m' hm' => ?_⟩
      rw [hm] at hm'
      cases hm'
      refine ⟨by omega, hne, fun c hmc hci => ?_⟩
      rcases Nat.lt_succ_iff_lt_or_eq.1 hci with h | rfl
      · exact hsame c hmc h
      · exact not_not.1 hend
  | none =>
    have hcovers := inv.covers
    rw [hm, Option.getD_none] at hcovers
    simp only
    split_ifs with hsome
    · refine ⟨hcovers, fun m' hm' => ?_⟩
      cases hm'
      refine ⟨Nat.lt_succ_self i, hsome, fun c hic hci => ?_⟩
      rw [show c = i by omega]
    · refine ⟨?_, fun m' hm' => by simp [hm] at hm'⟩
      rw [hm, Option.getD_none]
      exact hcovers.succ (not_not.1 hsome)

theorem foldl (d : Destinations) {n : Nat} (hn : n ≤ 128) :
    ScanInv d n ((List.range n).foldl Scan.step ⟨d, [], none⟩) := by
  induction n with
  | zero => exact initial
  | succ n ih =>
    rw [List.range_succ, List.foldl_append]
    exact (ih (by omega)).step (by omega)

end ScanInv

theorem represents_computeRanges (d : Destinations) : Represents d [] (computeRanges d) := by
  have inv := ScanInv.foldl d (le_refl 128)
  unfold computeRanges
  generalize (List.range 128).foldl Scan.step ⟨d, [], none⟩ = s at inv
  have hfinal : ∀ ranges destinations, Covers d 128 destinations ranges →
      Represents d [] ranges := by
    intro ranges destinations h
    refine ⟨by simp, h.wellFormed, fun c target hc hd => .inr ?_⟩
    exact h.covered c hc hc (by simp [hd])
  have hcovers := inv.covers
  cases hm : s.rangeMin with
  | none =>
    rw [hm] at hcovers
    simp only [hm]
    exact hfinal _ _ hcovers
  | some m =>
    rw [hm, Option.getD_some] at hcovers
    obtain ⟨hlt, hne, hsame⟩ := inv.pending m hm
    obtain ⟨target, htarget⟩ := Option.ne_none_iff_exists'.1 hne
    simp only [hm, htarget, Option.getD_some]
    refine hfinal _ s.destinations (hcovers.append ⟨by simp; omega, by simp, fun c hc hcm => ?_⟩
      (fun c => .inl rfl) fun c hmc hci => ?_)
    · simp only [Range.Matches, foldCase, if_true] at hcm
      exact hcovers.sub c target ((hsame c hcm.1 hc).trans htarget)
    · simp only [Range.Matches, foldCase, if_true]
      omega

/-! ## From ranges to jump tables -/

/-- The ranges from `base` to `stop` are single characters that follow each other. -/
def IsRun (ranges : List Range) (base stop : Nat) : Prop :=
  ∀ k, base ≤ k → k < stop → ∃ r, ranges[k]? = some r ∧ r.min = r.max ∧
    r.min = (ranges.getD base default).min + (k - base) ∧
    r.caseSensitive = (ranges.getD base default).caseSensitive

theorem mem_split {ranges : List Range} (base stop : Nat) {r : Range}
    (hr : r ∈ ranges) : r ∈ ranges.take base ++ ranges.drop stop ∨
      ∃ k, base ≤ k ∧ k < stop ∧ ranges[k]? = some r := by
  obtain ⟨k, hk⟩ := List.mem_iff_getElem?.1 hr
  by_cases hbase : k < base
  · left
    refine List.mem_append_left _ (List.mem_iff_getElem?.2 ⟨k, ?_⟩)
    rw [List.getElem?_take_of_lt hbase, hk]
  · by_cases hstop : k < stop
    · exact .inr ⟨k, not_lt.1 hbase, hstop, hk⟩
    · left
      refine List.mem_append_right _ (List.mem_iff_getElem?.2 ⟨k - stop, ?_⟩)
      rw [List.getElem?_drop, ← hk]
      congr 1
      omega

theorem Represents.extractJumpTable {d : Destinations} {s : Extraction} {base stop : Nat}
    (h : Represents d s.jumpTables s.ranges) (hlt : base < stop)
    (hrun : IsRun s.ranges base stop) :
    Represents d (s.extractJumpTable base (stop - 1)).jumpTables
      (s.extractJumpTable base (stop - 1)).ranges := by
  obtain ⟨first, hfirst, hfirst_eq, -, -⟩ := hrun base le_rfl hlt
  obtain ⟨last, hlast, hlast_eq, hlast_min, hlast_case⟩ := hrun (stop - 1) (by omega) (by omega)
  have hgetD : ∀ k r, s.ranges[k]? = some r → s.ranges.getD k default = r := by
    intro k r hr
    rw [List.getD_eq_getElem?_getD, hr, Option.getD_some]
  have hbase := hgetD _ _ hfirst
  rw [hbase] at hlast_min hlast_case
  have hlen : stop ≤ s.ranges.length := by
    have := (List.getElem?_eq_some_iff.1 hlast).1
    omega
  have hdest : ∀ k, k < stop - base → ∃ r, s.ranges[base + k]? = some r ∧ r.min = r.max ∧
      r.min = first.min + k ∧ r.caseSensitive = first.caseSensitive ∧
      (((s.ranges.drop base).take (stop - base)).map Range.destination)[k]? =
        some r.destination := by
    intro k hk
    obtain ⟨r, hr, hrmax, hrmin, hrcase⟩ := hrun (base + k) (by omega) (by omega)
    rw [hbase] at hrmin hrcase
    refine ⟨r, hr, hrmax, by omega, hrcase, ?_⟩
    rw [List.getElem?_map, List.getElem?_take_of_lt hk, List.getElem?_drop, hr, Option.map_some]
  have hlastmax : last.max = first.min + (stop - base) - 1 := by omega
  unfold Extraction.extractJumpTable
  simp only [hbase, hgetD _ _ hlast, hlast_case, hlastmax,
    show stop - 1 - base + 1 = stop - base by omega, show stop - 1 + 1 = stop by omega]
  have hwf := h.rangesWellFormed last (List.mem_of_getElem? hlast)
  refine ⟨?_, ?_, ?_⟩
  · intro t ht
    rcases List.mem_append.1 ht with ht | ht
    · exact h.tablesWellFormed t ht
    rw [List.mem_singleton.1 ht]
    refine ⟨?_, by simp; omega, ?_, ?_⟩
    · simp only [List.length_map, List.length_take, List.length_drop]
      omega
    · have := hwf.ascii
      simp only
      omega
    · intro c target hc htarget
      simp only [JumpTable.target] at htarget
      split_ifs at htarget with hin
      obtain ⟨r, hr, hrmax, hrmin, hrcase, hget⟩ :=
        hdest (foldCase first.caseSensitive c - first.min) (by omega)
      rw [hget] at htarget
      cases htarget
      refine (h.rangesWellFormed r (List.mem_of_getElem? hr)).sound c hc ?_
      rw [Range.Matches, hrcase]
      omega
  · intro r hr
    rcases List.mem_append.1 hr with hr | hr
    · exact h.rangesWellFormed r (List.mem_of_mem_take hr)
    · exact h.rangesWellFormed r (List.mem_of_mem_drop hr)
  · intro c target hc htarget
    rcases h.complete c target hc htarget with ⟨t, ht, htc⟩ | ⟨r, hr, hrc⟩
    · exact .inl ⟨t, List.mem_append_left _ ht, htc⟩
    rcases mem_split base stop hr with hmem | ⟨k, hbk, hks, hk⟩
    · exact .inr ⟨r, hmem, hrc⟩
    -- The range went into the table.
    refine .inl ⟨_, List.mem_append_right _ List.mem_cons_self, ?_⟩
    obtain ⟨r', hr', hrmax, hrmin, hrcase, hget⟩ := hdest (k - base) (by omega)
    rw [show base + (k - base) = k by omega, hk] at hr'
    cases hr'
    have hsound := (h.rangesWellFormed r hr).sound c hc hrc
    rw [htarget] at hsound
    cases hsound
    rw [Range.Matches, hrcase] at hrc
    rw [JumpTable.target, if_pos (by simp only; omega)]
    simp only
    rw [show foldCase first.caseSensitive c - first.min = k - base by omega, hget]

structure ExtractionInv (d : Destinations) (s : Extraction) : Prop where
  represents : Represents d s.jumpTables s.ranges
  base : ∀ b, s.baseRangePosition = some b →
    b < s.rangePosition ∧ IsRun s.ranges b s.rangePosition

namespace ExtractionInv

variable {d : Destinations} {s : Extraction}

theorem isRun_succ {ranges : List Range} {base stop : Nat} (h : IsRun ranges base stop)
    {r : Range} (hr : ranges[stop]? = some r) (hmax : r.min = r.max)
    (hmin : r.min = (ranges.getD base default).min + (stop - base))
    (hcase : r.caseSensitive = (ranges.getD base default).caseSensitive) :
    IsRun ranges base (stop + 1) := by
  intro k hbk hks
  rcases Nat.lt_succ_iff_lt_or_eq.1 hks with hlt | rfl
  · exact h k hbk hlt
  · exact ⟨r, hr, hmax, hmin, hcase⟩

/-- One turn keeps the invariant and leaves one range less to look at. -/
theorem step (inv : ExtractionInv d s) (hpos : s.rangePosition < s.ranges.length) :
    ExtractionInv d s.step ∧
      s.step.ranges.length - s.step.rangePosition + 1 = s.ranges.length - s.rangePosition := by
  have hrange : s.ranges[s.rangePosition]? = some s.ranges[s.rangePosition] :=
    List.getElem?_eq_getElem hpos
  have hgetD : s.ranges.getD s.rangePosition default = s.ranges[s.rangePosition] := by
    rw [List.getD_eq_getElem?_getD, hrange, Option.getD_some]
  unfold Extraction.step
  cases hb : s.baseRangePosition with
  | none =>
    simp only [hgetD]
    refine ⟨⟨inv.represents, fun b hbase => ?_⟩, by omega⟩
    simp only at hbase
    split_ifs at hbase with hsingle
    cases hbase
    refine ⟨Nat.lt_succ_self _, fun k hbk hks => ?_⟩
    simp only at hks
    obtain rfl : k = s.rangePosition := by omega
    exact ⟨_, hrange, hsingle, by rw [hgetD]; omega, by rw [hgetD]⟩
  | some base =>
    obtain ⟨hlt, hrun⟩ := inv.base base hb
    simp only [hgetD]
    split_ifs with hends hlong
    · refine ⟨⟨inv.represents.extractJumpTable hlt hrun, by simp⟩, ?_⟩
      simp only [Extraction.extractJumpTable, List.length_append, List.length_take,
        List.length_drop]
      omega
    · exact ⟨⟨inv.represents, by simp⟩, by simp only; omega⟩
    · simp only [not_or, not_not] at hends
      obtain ⟨hsingle, hcase, hnext⟩ := hends
      refine ⟨⟨inv.represents, fun b hbase => ?_⟩, by simp only; omega⟩
      cases hbase
      obtain ⟨prev, hprev, hprevmax, hprevmin, -⟩ :=
        hrun (s.rangePosition - 1) (by omega) (by omega)
      rw [List.getD_eq_getElem?_getD, hprev, Option.getD_some] at hnext
      have hmin : s.ranges[s.rangePosition].min =
          (s.ranges.getD base default).min + (s.rangePosition - base) := by omega
      exact ⟨Nat.lt_succ_of_lt hlt, isRun_succ hrun hrange hsingle hmin hcase.symm⟩

theorem loop {fuel : Nat} (inv : ExtractionInv d s)
    (hfuel : s.ranges.length - s.rangePosition ≤ fuel) :
    ExtractionInv d (s.loop fuel) ∧ (s.loop fuel).ranges.length ≤ (s.loop fuel).rangePosition := by
  induction fuel generalizing s with
  | zero => exact ⟨inv, by simp only [Extraction.loop]; omega⟩
  | succ fuel ih =>
    rw [Extraction.loop]
    split_ifs with hpos
    · obtain ⟨hinv, hmeasure⟩ := inv.step hpos
      exact ih hinv (by omega)
    · exact ⟨inv, not_lt.1 hpos⟩

end ExtractionInv

theorem represents_extractJumpTables {d : Destinations} {ranges : List Range}
    (h : Represents d [] ranges) :
    Represents d (extractJumpTables ranges).1 (extractJumpTables ranges).2 := by
  obtain ⟨inv, hdone⟩ := ExtractionInv.loop (s := ⟨[], ranges, 0, none⟩) ⟨h, by simp⟩
    (le_refl ranges.length)
  unfold extractJumpTables
  generalize Extraction.loop ranges.length ⟨[], ranges, 0, none⟩ = s at inv hdone
  cases hb : s.baseRangePosition with
  | none =>
    simp only [hb]
    exact inv.represents
  | some base =>
    obtain ⟨hlt, hrun⟩ := inv.base base hb
    simp only [hb]
    split_ifs with hlong
    · exact inv.represents.extractJumpTable (by omega) fun k hbk hks => hrun k hbk (by omega)
    · exact inv.represents

/-- The fallback target, if the node can use one. -/
def fallback (node : DFANode) : Option Nat :=
  if node.canUseFallbackTransition then some node.bestFallbackTarget else none

/-- What is left of the transitions of a node when the fallback target is left out. -/
def checkedNext (node : DFANode) : Destinations := fun c =>
  (node.next c).bind fun target => if fallback node = some target then none else some target

theorem represents_transitions {dfa : DFA} {node : DFANode} (wf : node.WellFormed dfa) :
    Represents (checkedNext node) (transitions node).jumpTables (transitions node).ranges := by
  have hfill : fillDestinations (fallback node) (fun _ => none) node.transitions =
      checkedNext node := by
    funext c
    exact fillDestinations_eq wf.sorted rfl
  rw [fallback] at hfill
  unfold transitions
  simp only
  rw [hfill]
  exact represents_extractJumpTables (represents_computeRanges (checkedNext node))

end DFABytecodeCompiler

end Odyssey.ContentExtensions
