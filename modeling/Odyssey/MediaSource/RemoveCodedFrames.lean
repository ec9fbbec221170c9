import Odyssey.MediaSource.SampleMap

/-!
# Removing coded frames

Removing the frames presented between two times removes a range of the decode order that ends at a
sync sample, so that no frame is left without the frames it depends on. The bounds of that range
come from two orders, and they are right only if the sync sample is presented at the end time or
later and all the frames to be removed precede it in decode order. Leading frames of an open group
of pictures do not.
-/
namespace Odyssey.MediaSource

open Lib

variable {Time : Type} [LinearOrder Time]

/-- The sample at which a removal up to the time `stop` ends: the first random access point in
decode order from the first sample presented at `stop` or later. -/
def StopsAt (m : SampleMap Time) (stop : Time) (s : MediaSample Time) : Prop :=
  ∃ e, (e ∈ m.presentationOrder ∧ stop ≤ e.presentationTime ∧
      ∀ x ∈ m.presentationOrder,
        stop ≤ x.presentationTime → e.presentationTime ≤ x.presentationTime) ∧
    s ∈ m.decodeOrder ∧ sampleIsRandomAccess s = true ∧ e.decodeKey ≤ s.decodeKey ∧
    ∀ x ∈ m.decodeOrder, sampleIsRandomAccess x = true → e.decodeKey ≤ x.decodeKey →
      s.decodeKey ≤ x.decodeKey

/-- The sample that ends the removal is not presented before `stop`, and the samples to be removed
precede it in decode order. -/
def Separated (start stop : Time) (m : SampleMap Time) : Prop :=
  ∀ s, StopsAt m stop s → stop ≤ s.presentationTime ∧
    ∀ x ∈ m.presentationOrder, start ≤ x.presentationTime → x.presentationTime < stop →
      x.decodeKey < s.decodeKey

/-- The samples presented between the times are gone, and every other sample still has, in decode
order, its preceding sync sample and all samples between them. -/
structure Removes (start stop : Time) (t t' : TrackBuffer Time) : Prop where
  removed : ∀ x ∈ t.samples.presentationOrder,
    start ≤ x.presentationTime → x.presentationTime < stop →
    x ∉ t'.samples.presentationOrder ∧ x ∉ t'.samples.decodeOrder
  closed : ∀ x ∈ t'.samples.decodeOrder, x.isSync = false →
    ∀ s ∈ t.samples.decodeOrder, s.isSync = true → s.decodeKey < x.decodeKey →
    (∀ y ∈ t.samples.decodeOrder, y.isSync = true → y.decodeKey < x.decodeKey →
      y.decodeKey ≤ s.decodeKey) →
    ∀ y ∈ t.samples.decodeOrder, s.decodeKey ≤ y.decodeKey → y.decodeKey < x.decodeKey →
      y ∈ t'.samples.decodeOrder

section

variable {m : SampleMap Time} {start stop : Time} {s : MediaSample Time}

theorem StopsAt.unique (h : StopsAt m stop s) {s' : MediaSample Time} (h' : StopsAt m stop s') :
    s = s' := by
  obtain ⟨e, ⟨he, hstop, first⟩, hs, sync, after, least⟩ := h
  obtain ⟨e', ⟨he', hstop', first'⟩, hs', sync', after', least'⟩ := h'
  obtain rfl := m.presentation_ascending.eq_of_key_eq he he'
    (le_antisymm (first e' he' hstop') (first' e he hstop))
  exact m.decode_ascending.eq_of_key_eq hs hs'
    (le_antisymm (least s' hs' sync' after') (least' s hs sync after))

variable {x : MediaSample Time}

theorem findSampleWithDecodeKey_eq (hx : x ∈ m.decodeOrder) :
    m.findSampleWithDecodeKey x.decodeKey =
      lowerBound MediaSample.decodeKey x.decodeKey m.decodeOrder := by
  simp [SampleMap.findSampleWithDecodeKey, getElem?_lowerBound_key m.decode_ascending hx]

theorem findSampleWithPresentationTime_eq (hx : x ∈ m.presentationOrder) :
    m.findSampleWithPresentationTime x.presentationTime =
      lowerBound MediaSample.presentationTime x.presentationTime m.presentationOrder := by
  simp [SampleMap.findSampleWithPresentationTime,
    getElem?_lowerBound_key m.presentation_ascending hx]

/-- The search for the end of the removal. -/
theorem findSyncSampleAfterPresentationTime_spec (consistent : m.Consistent) (stop : Time) :
    (m.findSyncSampleAfterPresentationTime stop ⊤ = m.decodeOrder.length ∧ ∀ s, ¬StopsAt m stop s) ∨
      ∃ s, StopsAt m stop s ∧ m.findSyncSampleAfterPresentationTime stop ⊤ =
        lowerBound MediaSample.decodeKey s.decodeKey m.decodeOrder := by
  unfold SampleMap.findSyncSampleAfterPresentationTime SampleMap.findSampleOnOrAfterPresentationTime
  cases first : m.presentationOrder[lowerBound MediaSample.presentationTime stop
      m.presentationOrder]? with
  | none =>
    refine .inl ⟨rfl, fun s ⟨e, ⟨he, hstop, _⟩, _⟩ => ?_⟩
    exact absurd hstop
      (not_le.mpr (lt_key_of_lowerBound_eq_length m.presentation_ascending first he))
  | some e =>
    have he := first_of_getElem?_lowerBound m.presentation_ascending first
    dsimp only
    rw [findSampleWithDecodeKey_eq ((consistent e).mp he.1)]
    cases found : m.decodeOrder[findFrom sampleIsRandomAccess
        (lowerBound MediaSample.decodeKey e.decodeKey m.decodeOrder) m.decodeOrder]? with
    | none =>
      refine .inl ⟨rfl, fun s ⟨e', ⟨he', hstop, first'⟩, hs, sync, after, _⟩ => ?_⟩
      obtain rfl := m.presentation_ascending.eq_of_key_eq he.1 he'
        (le_antisymm (he.2.2 e' he' hstop) (first' e he.1 he.2.1))
      rw [not_of_findFrom m.decode_ascending found hs after] at sync
      cases sync
    | some s =>
      have hs := first_of_findFrom m.decode_ascending found
      refine .inr ⟨s, ⟨e, he, hs.1, hs.2.1, hs.2.2.1, hs.2.2.2⟩, ?_⟩
      rw [lowerBound_key m.decode_ascending found]
      simp

/-! ## What is removed -/

variable {t : TrackBuffer Time} {erased : List (MediaSample Time)}

theorem mem_decodeOrder_removeSamples :
    x ∈ (t.removeSamplesFromTrackBuffer erased).samples.decodeOrder ↔
      x ∈ t.samples.decodeOrder ∧ ∀ y ∈ erased, x.decodeKey ≠ y.decodeKey := by
  unfold TrackBuffer.removeSamplesFromTrackBuffer
  induction erased generalizing t with
  | nil => simp
  | cons y erased ih =>
    rw [List.foldl_cons, ih]
    simp [SampleMap.removeSample, and_assoc]

theorem mem_presentationOrder_removeSamples :
    x ∈ (t.removeSamplesFromTrackBuffer erased).samples.presentationOrder ↔
      x ∈ t.samples.presentationOrder ∧
        ∀ y ∈ erased, x.presentationTime ≠ y.presentationTime := by
  unfold TrackBuffer.removeSamplesFromTrackBuffer
  induction erased generalizing t with
  | nil => simp
  | cons y erased ih =>
    rw [List.foldl_cons, ih]
    simp [SampleMap.removeSample, and_assoc]

/-- Samples can be removed when after them in decode order there are only samples that have a sync
sample between. -/
theorem removes_of_erased
    (sub : ∀ y ∈ erased, y ∈ t.samples.decodeOrder)
    (covers : ∀ x ∈ t.samples.presentationOrder, start ≤ x.presentationTime →
      x.presentationTime < stop → x ∈ erased)
    (between : ∀ y ∈ erased, ∀ x ∈ t.samples.decodeOrder, x ∉ erased → y.decodeKey < x.decodeKey →
      ∃ z ∈ t.samples.decodeOrder, z.isSync = true ∧ y.decodeKey < z.decodeKey ∧
        z.decodeKey ≤ x.decodeKey) :
    Removes start stop t (t.removeSamplesFromTrackBuffer erased) := by
  have ascending := t.samples.decode_ascending
  constructor
  · intro x hx hstart hstop
    have he := covers x hx hstart hstop
    rw [mem_presentationOrder_removeSamples, mem_decodeOrder_removeSamples]
    exact ⟨fun h => h.2 x he rfl, fun h => h.2 x he rfl⟩
  · intro x hx nonsync s hs sync hsx last y hy hsy hyx
    rw [mem_decodeOrder_removeSamples] at hx ⊢
    refine ⟨hy, fun y' hy' e => ?_⟩
    obtain rfl := ascending.eq_of_key_eq hy (sub y' hy') e
    obtain ⟨z, hz, hzsync, hyz, hzx⟩ := between y hy' x hx.1 (fun h => hx.2 x h rfl) hyx
    rcases hzx.lt_or_eq with hlt | heq
    · exact absurd (last z hz hzsync hlt) (not_le.mpr (hsy.trans_lt hyz))
    · obtain rfl := ascending.eq_of_key_eq hz hx.1 heq
      rw [nonsync] at hzsync
      cases hzsync

theorem removes_refl (covers : ∀ x ∈ t.samples.presentationOrder, start ≤ x.presentationTime →
    ¬x.presentationTime < stop) : Removes start stop t t :=
  ⟨fun x hx hstart hstop => absurd hstop (covers x hx hstart), fun _ _ _ _ _ _ _ _ _ hy _ _ => hy⟩

/-- The sample with the least decode time, the first of them in presentation order, has the least
decode key. -/
theorem decodeKey_le_of_minElement {l : List (MediaSample Time)} {r : MediaSample Time}
    (ascending : Ascending MediaSample.presentationTime l)
    (h : minElement MediaSample.decodeTime l = some r) :
    r ∈ l ∧ ∀ x ∈ l, r.decodeKey ≤ x.decodeKey := by
  obtain ⟨before, after, rfl, hbefore, hafter⟩ := exists_of_minElement h
  refine ⟨by simp, fun x hx => ?_⟩
  rw [MediaSample.decodeKey, MediaSample.decodeKey, Prod.Lex.toLex_le_toLex]
  rw [List.mem_append, List.mem_cons] at hx
  rcases hx with hx | rfl | hx
  · exact .inl (hbefore x hx)
  · exact .inr ⟨rfl, le_refl _⟩
  · rcases (hafter x hx).lt_or_eq with hlt | heq
    · exact .inl hlt
    · have := (List.pairwise_append.mp ascending).2.1
      exact .inr ⟨heq, ((List.pairwise_cons.mp this).1 x hx).le⟩

theorem exists_minElement {l : List (MediaSample Time)} {i j : Nat}
    (ascending : Ascending MediaSample.presentationTime l) (hij : i < j) (hj : j ≤ l.length) :
    ∃ r, minElement MediaSample.decodeTime (range i j l) = some r ∧ r ∈ range i j l ∧
      ∀ x ∈ range i j l, r.decodeKey ≤ x.decodeKey := by
  have hi : i < l.length := by omega
  have mem : l[i] ∈ range i j l := mem_range.mpr ⟨i, hi, le_refl i, hij, rfl⟩
  cases h : minElement MediaSample.decodeTime (range i j l) with
  | none =>
    cases e : range i j l with
    | nil => simp [e] at mem
    | cons a l => simp [e, minElement] at h
  | some r =>
    exact ⟨r, rfl, decodeKey_le_of_minElement (ascending.sublist (range_sublist i j l)) h⟩

/-! ## One track -/

/-- There is no random access point to stop at: everything from the least decode key on is removed.
-/
theorem removeCodedFrames_of_not_stopsAt (consistent : t.samples.Consistent)
    (past : t.samples.findSyncSampleAfterPresentationTime stop ⊤ = t.samples.decodeOrder.length) :
    ∃ t', t.removeCodedFrames start stop = some t' ∧ Removes start stop t t' := by
  have ascending := t.samples.presentation_ascending
  have decode_ascending := t.samples.decode_ascending
  have none_ : t.samples.decodeOrder[t.samples.decodeOrder.length]? = none := by simp
  simp only [TrackBuffer.removeCodedFrames, past, none_,
    SampleMap.findSampleOnOrAfterPresentationTime]
  split_ifs with empty crossed
  · refine ⟨t, rfl, removes_refl fun x hx hstart => ?_⟩
    have := lt_key_of_lowerBound_eq_length ascending (by rw [empty]; simp) hx
    exact absurd hstart (not_le.mpr this)
  · exact absurd (lowerBound_le_length start) (not_le.mpr crossed)
  · obtain ⟨r, hr, hmem, least⟩ := exists_minElement ascending
      (lt_of_le_of_ne (lowerBound_le_length start) empty) (le_refl _)
    rw [hr]
    dsimp only
    have hr' := (consistent r).mp (mem_range_length ascending |>.mp hmem).1
    rw [findSampleWithDecodeKey_eq hr', if_neg (not_lt.mpr (lowerBound_le_length _))]
    refine ⟨_, rfl, removes_of_erased ?_ ?_ ?_⟩
    · exact fun y hy => (mem_range_length decode_ascending |>.mp hy).1
    · intro x hx hstart _
      exact mem_range_length decode_ascending |>.mpr
        ⟨(consistent x).mp hx, least x (mem_range_length ascending |>.mpr ⟨hx, hstart⟩)⟩
    · intro y hy x hx hxe hlt
      have hy' := (mem_range_length decode_ascending |>.mp hy).2
      exact absurd (mem_range_length decode_ascending |>.mpr ⟨hx, hy'.trans hlt.le⟩) hxe

/-- What happens when the removal stops at the sample `s`. -/
inductive Outcome (start : Time) (t : TrackBuffer Time) (s : MediaSample Time) :
    Option (TrackBuffer Time) → Prop
  | unchanged : start ≤ s.presentationTime →
      (∀ x ∈ t.samples.presentationOrder, start ≤ x.presentationTime →
        s.presentationTime ≤ x.presentationTime) → Outcome start t s (some t)
  | presentationCrossed : s.presentationTime < start → Outcome start t s none
  | decodeCrossed (r : MediaSample Time) : r ∈ t.samples.presentationOrder →
      start ≤ r.presentationTime → r.presentationTime < s.presentationTime →
      (∀ x ∈ t.samples.presentationOrder, start ≤ x.presentationTime →
        x.presentationTime < s.presentationTime → r.decodeKey ≤ x.decodeKey) →
      s.decodeKey < r.decodeKey → Outcome start t s none
  | erased (r : MediaSample Time) (erased : List (MediaSample Time)) :
      start ≤ s.presentationTime →
      (∀ x ∈ t.samples.presentationOrder, start ≤ x.presentationTime →
        x.presentationTime < s.presentationTime → r.decodeKey ≤ x.decodeKey) →
      (∀ x, x ∈ erased ↔ x ∈ t.samples.decodeOrder ∧ r.decodeKey ≤ x.decodeKey ∧
        x.decodeKey < s.decodeKey) →
      Outcome start t s (some (t.removeSamplesFromTrackBuffer erased))

theorem outcome_removeCodedFrames (consistent : t.samples.Consistent)
    (stops : StopsAt t.samples stop s) :
    Outcome start t s (t.removeCodedFrames start stop) := by
  have ascending := t.samples.presentation_ascending
  have decode_ascending := t.samples.decode_ascending
  have hs : s ∈ t.samples.decodeOrder := by
    obtain ⟨e, -, hs, -⟩ := stops
    exact hs
  have hs' := (consistent s).mpr hs
  have found : t.samples.findSyncSampleAfterPresentationTime stop ⊤ =
      lowerBound MediaSample.decodeKey s.decodeKey t.samples.decodeOrder := by
    rcases findSyncSampleAfterPresentationTime_spec consistent stop with ⟨-, no⟩ | ⟨s', stops', e⟩
    · exact absurd stops (no s)
    · rw [stops.unique stops', e]
  simp only [TrackBuffer.removeCodedFrames, found, getElem?_lowerBound_key decode_ascending hs,
    SampleMap.findSampleOnOrAfterPresentationTime, findSampleWithPresentationTime_eq hs']
  split_ifs with empty crossed
  · refine .unchanged (not_lt.mp fun hlt => ?_) fun x hx hstart => not_lt.mp fun hlt => ?_
    · have := (lowerBound_lt_iff ascending hs').mpr hlt
      omega
    · have := mem_range_lowerBound ascending |>.mpr ⟨hx, hstart, hlt⟩
      simp [empty, range] at this
  · exact .presentationCrossed ((lowerBound_lt_iff ascending hs').mp crossed)
  · obtain ⟨r, hr, hmem, least⟩ := exists_minElement ascending
      (lt_of_le_of_ne (not_lt.mp crossed) empty) (lowerBound_le_length _)
    obtain ⟨hr', hstart, hbefore⟩ := mem_range_lowerBound ascending |>.mp hmem
    have least' : ∀ x ∈ t.samples.presentationOrder, start ≤ x.presentationTime →
        x.presentationTime < s.presentationTime → r.decodeKey ≤ x.decodeKey :=
      fun x hx h1 h2 => least x (mem_range_lowerBound ascending |>.mpr ⟨hx, h1, h2⟩)
    rw [hr]
    dsimp only
    rw [findSampleWithDecodeKey_eq ((consistent r).mp hr')]
    split_ifs with invalid
    · exact .decodeCrossed r hr' hstart hbefore least'
        ((lowerBound_lt_iff decode_ascending hs).mp invalid)
    · exact .erased r _ (hstart.trans hbefore.le) least'
        fun x => mem_range_lowerBound decode_ascending

/-- Removing frames from a track is right exactly when the sample at which the removal stops
separates them from the frames that stay. -/
theorem removes_iff_separated (consistent : t.samples.Consistent) (hlt : start < stop) :
    (∃ t', t.removeCodedFrames start stop = some t' ∧ Removes start stop t t') ↔
      Separated start stop t.samples := by
  constructor
  · rintro ⟨t', result, removes⟩ s stops
    have outcome : Outcome start t s _ := outcome_removeCodedFrames consistent stops
    have hs : s ∈ t.samples.decodeOrder := by
      obtain ⟨e, -, hs, -⟩ := stops
      exact hs
    have hs' := (consistent s).mpr hs
    rw [result] at outcome
    cases outcome with
    | unchanged hstart =>
      refine ⟨not_lt.mp fun hbefore => ?_, fun x hx h1 h2 => ?_⟩
      · exact absurd hs' (removes.removed s hs' hstart hbefore).1
      · exact absurd hx (removes.removed x hx h1 h2).1
    | erased r erased hstart least mem =>
      refine ⟨not_lt.mp fun hbefore => ?_, fun x hx h1 h2 => ?_⟩
      · refine (removes.removed s hs' hstart hbefore).2 (mem_decodeOrder_removeSamples.mpr ⟨hs, ?_⟩)
        exact fun y hy => (((mem y).mp hy).2.2).ne'
      · have gone := (removes.removed x hx h1 h2).2
        rw [mem_decodeOrder_removeSamples] at gone
        push Not at gone
        obtain ⟨y, hy, e⟩ := gone ((consistent x).mp hx)
        rw [e]
        exact ((mem y).mp hy).2.2
  · intro separated
    rcases findSyncSampleAfterPresentationTime_spec consistent stop with ⟨past, -⟩ | ⟨s, stops, -⟩
    · exact removeCodedFrames_of_not_stopsAt consistent past
    have outcome : Outcome start t s _ := outcome_removeCodedFrames consistent stops
    obtain ⟨hstop, before⟩ := separated s stops
    obtain ⟨e, ⟨he, hestop, first⟩, hs, sync, after, -⟩ := stops
    generalize t.removeCodedFrames start stop = result at outcome
    cases outcome with
    | unchanged hstart all =>
      exact ⟨t, rfl, removes_refl fun x hx h => not_lt.mpr (hstop.trans (all x hx h))⟩
    | presentationCrossed crossed => exact absurd (hlt.trans_le hstop) (not_lt.mpr crossed.le)
    | decodeCrossed r hr hstart hbefore least crossed =>
      -- Either the first sample from `stop` on lies in the range, or everything in it is before
      -- `stop`.
      rcases lt_or_ge e.presentationTime s.presentationTime with h | h
      · have := least e he (hlt.le.trans hestop) h
        exact absurd (this.trans after) (not_le.mpr crossed)
      · have hr' : r.presentationTime < stop := not_le.mp fun hle =>
          absurd (h.trans (first r hr hle)) (not_le.mpr hbefore)
        exact absurd (before r hr hstart hr') (lt_asymm crossed)
    | erased r erased hstart least mem =>
      refine ⟨_, rfl, removes_of_erased (fun y hy => ((mem y).mp hy).1) ?_ ?_⟩
      · intro x hx h1 h2
        exact (mem x).mpr ⟨(consistent x).mp hx, least x hx h1 (h2.trans_le hstop),
          before x hx h1 h2⟩
      · intro y hy x hx hxe hyx
        have hy' := ((mem y).mp hy).2
        refine ⟨s, hs, (Bool.and_eq_true_iff.mp sync).1, hy'.2, not_lt.mp fun hxs => hxe ?_⟩
        exact (mem x).mpr ⟨hx, hy'.1.trans hyx.le, hxs⟩

end

/-! ## All tracks -/

/-- Frames are removed from every track of a source buffer as they should exactly when each track is
separated at the sample where its removal stops. -/
theorem removeCodedFrames_iff (trackBufferMap : List (TrackBuffer Time))
    (consistent : ∀ t ∈ trackBufferMap, t.samples.Consistent) (start stop : Time)
    (hlt : start < stop) :
    (∃ trackBufferMap', removeCodedFrames start stop trackBufferMap = some trackBufferMap' ∧
      List.Forall₂ (Removes start stop) trackBufferMap trackBufferMap') ↔
      ∀ t ∈ trackBufferMap, Separated start stop t.samples := by
  unfold removeCodedFrames
  induction trackBufferMap with
  | nil => exact ⟨fun _ => by simp, fun _ => ⟨[], rfl, .nil⟩⟩
  | cons t ts ih =>
    rw [List.forall_mem_cons] at consistent
    rw [List.forall_mem_cons, ← ih consistent.2, ← removes_iff_separated consistent.1 hlt]
    simp only [List.mapM_cons]
    constructor
    · rintro ⟨_, result, removes⟩
      cases removes with
      | cons removes removes' =>
        rename_i t' ts'
        cases h : t.removeCodedFrames start stop with
        | none => simp [h] at result
        | some t'' =>
          cases hs : ts.mapM (TrackBuffer.removeCodedFrames start stop) with
          | none => simp [h, hs] at result
          | some ts'' =>
            simp only [h, hs] at result
            obtain ⟨rfl, rfl⟩ := List.cons.inj (Option.some.inj result)
            exact ⟨⟨t'', rfl, removes⟩, ts'', rfl, removes'⟩
    · rintro ⟨⟨t', h, removes⟩, ts', hs, removes'⟩
      exact ⟨t' :: ts', by simp [h, hs], .cons removes removes'⟩

/-- A track that holds one sync sample and the frame that follows it in both orders. -/
def closedGroup : TrackBuffer Nat where
  samples :=
    { presentationOrder := [⟨0, 0, 1, true, false⟩, ⟨1, 1, 1, false, false⟩]
      decodeOrder := [⟨0, 0, 1, true, false⟩, ⟨1, 1, 1, false, false⟩]
      totalSize := 2
      presentation_ascending := by simp [Ascending]
      decode_ascending := by simp [Ascending, MediaSample.decodeKey, Prod.Lex.toLex_lt_toLex] }
  decodeQueue := []

theorem removeCodedFrames_iff_closedGroup :
    (∃ trackBufferMap', removeCodedFrames 1 2 [closedGroup] = some trackBufferMap' ∧
      List.Forall₂ (Removes 1 2) [closedGroup] trackBufferMap') ↔
      ∀ t ∈ [closedGroup], Separated 1 2 t.samples :=
  removeCodedFrames_iff [closedGroup] (by simp [SampleMap.Consistent, closedGroup]) 1 2 (by decide)

/-- A sync sample presented at 10 and two leading frames, presented at 8 and 9 but decoded after it.
-/
def openGroup : TrackBuffer Nat where
  samples :=
    { presentationOrder :=
      [⟨8, 7, 1, false, false⟩, ⟨9, 8, 1, false, false⟩, ⟨10, 6, 1, true, false⟩]
      decodeOrder := [⟨10, 6, 1, true, false⟩, ⟨8, 7, 1, false, false⟩, ⟨9, 8, 1, false, false⟩]
      totalSize := 3
      presentation_ascending := by simp [Ascending]
      decode_ascending := by simp [Ascending, MediaSample.decodeKey, Prod.Lex.toLex_lt_toLex] }
  decodeQueue := []

/-- The range to be removed begins after it ends. -/
theorem removeCodedFrames_openGroup :
    ¬∀ (trackBufferMap : List (TrackBuffer Nat)) (start stop : Nat),
      (∀ t ∈ trackBufferMap, t.samples.Consistent) → start < stop →
      ∃ trackBufferMap', removeCodedFrames start stop trackBufferMap = some trackBufferMap' ∧
        List.Forall₂ (Removes start stop) trackBufferMap trackBufferMap' := by
  intro all
  have consistent : ∀ t ∈ [openGroup], t.samples.Consistent := by
    rw [List.forall_mem_singleton]
    intro sample
    simp only [openGroup, List.mem_cons, List.not_mem_nil]
    tauto
  have crossed : removeCodedFrames 8 10 [openGroup] = none := by decide +kernel
  obtain ⟨_, result, -⟩ := all [openGroup] 8 10 consistent (by decide)
  rw [crossed] at result
  cases result

end Odyssey.MediaSource
