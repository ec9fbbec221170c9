import Mathlib.Data.List.Basic

/-!
# Converting item by item into a bounded buffer

A reader takes one item off a source and says what to write for it. `convert` goes on as long as
everything fits and says why and where it stopped. A conversion that stopped for want of room can
be taken up where it stopped: the pieces make up the conversion into a large buffer.
-/
namespace Odyssey.Lib

universe u v w

/-- Reads the first item of a source: what is written for it, and what is left. -/
structure Reader (α : Type u) (β : Type v) (ε : Type w) where
  next : List α → Except ε (List β × List α)
  shorter : ∀ {source units rest}, next source = .ok (units, rest) → rest.length < source.length

inductive Stop (ε : Type w)
  | done
  | full
  | failed (error : ε)

namespace Reader

variable {α : Type u} {β : Type v} {ε : Type w}

/-- Something was written before. -/
def prepend (out : List β) (r : Stop ε × List α × List β) : Stop ε × List α × List β :=
  (r.1, r.2.1, out ++ r.2.2)

@[simp] theorem prepend_nil (r : Stop ε × List α × List β) : prepend [] r = r := rfl

theorem prepend_prepend (out out' : List β) (r : Stop ε × List α × List β) :
    prepend out (prepend out' r) = prepend (out ++ out') r := by
  simp [prepend]

variable (R : Reader α β ε)

def convert (room : Nat) (source : List α) : Stop ε × List α × List β :=
  match source with
  | [] => (.done, [], [])
  | a :: source =>
    match _h : R.next (a :: source) with
    | .error e => (.failed e, a :: source, [])
    | .ok (units, rest) =>
      if units.length ≤ room then prepend units (convert (room - units.length) rest)
      else (.full, a :: source, [])
termination_by source.length
decreasing_by exact R.shorter _h

/-- One conversion after the other into buffers of the given sizes. -/
def convertPieces : List Nat → List α → Stop ε × List α × List β
  | [], source => (.full, source, [])
  | room :: rooms, source =>
    match R.convert room source with
    | (.full, left, out) => prepend out (convertPieces rooms left)
    | r => r

/-- Reading items off the source writes `out` and leaves `left`. -/
inductive Items : List α → List β → List α → Prop
  | refl (source : List α) : Items source [] source
  | step {source rest left : List α} {units out : List β} :
      source ≠ [] → R.next source = .ok (units, rest) → Items rest out left →
      Items source (units ++ out) left

/-- No item can be read any more. -/
inductive Ends : Stop ε → List α → Prop
  | done : Ends .done []
  | failed {left : List α} {e : ε} : left ≠ [] → R.next left = .error e → Ends (.failed e) left

variable {R} {source rest left left' : List α} {units out out' : List β} {room room' : Nat}
  {stop stop' : Stop ε}

theorem convert_error {e : ε} (hne : source ≠ []) (h : R.next source = .error e) :
    R.convert room source = (.failed e, source, []) := by
  obtain ⟨a, source, rfl⟩ := List.exists_cons_of_ne_nil hne
  rw [convert]
  split
  · rename_i e' he'
    rw [h] at he'
    cases he'
    rfl
  · rename_i units' rest' hok
    rw [h] at hok
    cases hok

theorem convert_ok (hne : source ≠ []) (h : R.next source = .ok (units, rest)) :
    R.convert room source =
      if units.length ≤ room then prepend units (R.convert (room - units.length) rest)
      else (.full, source, []) := by
  obtain ⟨a, source, rfl⟩ := List.exists_cons_of_ne_nil hne
  rw [convert]
  split
  · rename_i e he
    rw [h] at he
    cases he
  · rename_i units' rest' hok
    rw [h] at hok
    cases hok
    rfl

/-- Items that fit are converted first. -/
theorem Items.convert_eq (h : R.Items source out left) (hroom : out.length ≤ room) :
    R.convert room source = prepend out (R.convert (room - out.length) left) := by
  induction h generalizing room with
  | refl source => rfl
  | @step source rest left units out hne hnext _ ih =>
    rw [List.length_append] at hroom ⊢
    rw [convert_ok hne hnext, if_pos (by omega), ih (by omega), prepend_prepend, Nat.sub_sub]

theorem Items.trans (h : R.Items source out rest) (h' : R.Items rest out' left) :
    R.Items source (out ++ out') left := by
  induction h with
  | refl source => exact h'
  | step hne hnext _ ih =>
    rw [List.append_assoc]
    exact .step hne hnext (ih h')

theorem Items.length_le (h : R.Items source out left) : left.length ≤ source.length := by
  induction h with
  | refl source => exact Nat.le_refl _
  | step _ hnext _ ih => exact Nat.le_trans ih (Nat.le_of_lt (R.shorter hnext))

theorem Ends.convert_eq (h : R.Ends stop left) : R.convert room left = (stop, left, []) := by
  cases h with
  | done => rw [convert]
  | failed hne hnext => exact convert_error hne hnext

theorem Ends.convert_eq_zero (h : R.Ends stop left) : R.convert 0 left = (stop, left, []) :=
  h.convert_eq

theorem convert_eq_of_ends (h : R.Items source out left) (hends : R.Ends stop left)
    (hroom : out.length ≤ room) : R.convert room source = (stop, left, out) := by
  rw [h.convert_eq hroom, hends.convert_eq]
  simp [prepend]

/-- What a conversion does: it has read the items that fit, and the next one is missing, fails or
does not fit. -/
theorem convert_spec (room : Nat) (source : List α) :
    R.Items source (R.convert room source).2.2 (R.convert room source).2.1 ∧
      (R.convert room source).2.2.length ≤ room ∧
      (R.Ends (R.convert room source).1 (R.convert room source).2.1 ∨
        (R.convert room source).1 = .full ∧ (R.convert room source).2.1 ≠ [] ∧
          ∃ units rest, R.next (R.convert room source).2.1 = .ok (units, rest) ∧
            room < (R.convert room source).2.2.length + units.length) := by
  induction hlength : source.length using Nat.strongRecOn generalizing source room with
  | ind length ih =>
    by_cases hne : source = []
    · subst hne
      rw [convert]
      exact ⟨.refl [], Nat.zero_le _, .inl .done⟩
    cases hnext : R.next source with
    | error e =>
      rw [convert_error hne hnext]
      exact ⟨.refl source, Nat.zero_le _, .inl (.failed hne hnext)⟩
    | ok next =>
      obtain ⟨units, rest⟩ := next
      rw [convert_ok hne hnext]
      split_ifs with hfits
      · have hshorter := R.shorter hnext
        obtain ⟨hitems, hle, hstop⟩ := ih _ (by omega) (room - units.length) rest rfl
        refine ⟨.step hne hnext hitems, ?_, ?_⟩
        · simp only [prepend, List.length_append]
          omega
        · simp only [prepend, List.length_append]
          rcases hstop with hends | ⟨hfull, hleft, units', rest', hnext', hlarge⟩
          · exact .inl hends
          · exact .inr ⟨hfull, hleft, units', rest', hnext', by omega⟩
      · exact ⟨.refl source, Nat.zero_le _,
          .inr ⟨rfl, hne, units, rest, hnext, by simp only [List.length_nil]; omega⟩⟩

theorem Ends.ne_full (h : R.Ends stop left) : stop ≠ .full := by
  cases h <;> simp

theorem ends_of_convert (h : R.convert room source = (stop, left, out)) (hstop : stop ≠ .full) :
    R.Items source out left ∧ R.Ends stop left ∧ out.length ≤ room := by
  obtain ⟨hitems, hle, hends⟩ := convert_spec (R := R) room source
  rw [h] at hitems hle hends
  rcases hends with hends | ⟨hfull, -⟩
  · exact ⟨hitems, hends, hle⟩
  · exact absurd hfull hstop

theorem items_of_convert (h : R.convert room source = (stop, left, out)) :
    R.Items source out left ∧ out.length ≤ room := by
  obtain ⟨hitems, hle, -⟩ := convert_spec (R := R) room source
  rw [h] at hitems hle
  exact ⟨hitems, hle⟩

/-- A conversion that is not stopped by its buffer does the same in every buffer that does not stop
it. -/
theorem convert_eq_convert (hstop : (R.convert room source).1 ≠ .full)
    (hstop' : (R.convert room' source).1 ≠ .full) :
    R.convert room source = R.convert room' source := by
  obtain ⟨hitems, hends, hle⟩ := ends_of_convert (R := R) rfl hstop
  obtain ⟨hitems', hends', hle'⟩ := ends_of_convert (R := R) rfl hstop'
  rcases Nat.le_total room room' with h | h
  · rw [convert_eq_of_ends hitems hends (Nat.le_trans hle h)]
  · rw [convert_eq_of_ends hitems' hends' (Nat.le_trans hle' h)]

/-- A conversion taken up where the reading stopped goes on as one that was not stopped. -/
theorem convert_resume (hfirst : R.Items source out rest)
    (hsecond : R.convert room rest = (stop, left, out')) (hstop : stop ≠ .full)
    (hlarge : (R.convert room' source).1 ≠ .full) :
    R.convert room' source = (stop, left, out ++ out') := by
  obtain ⟨hitems, hends, -⟩ := ends_of_convert hsecond hstop
  have hwhole := convert_eq_of_ends (hfirst.trans hitems) hends (Nat.le_refl _)
  rw [← hwhole]
  refine convert_eq_convert hlarge ?_
  rw [hwhole]
  exact hstop

theorem convertPieces_spec {rooms : List Nat}
    (h : R.convertPieces rooms source = (stop, left, out)) :
    R.Items source out left ∧ (stop ≠ .full → R.Ends stop left) := by
  induction rooms generalizing source stop left out with
  | nil =>
    cases h
    exact ⟨.refl source, fun h => absurd rfl h⟩
  | cons room rooms ih =>
    obtain ⟨stop', left', out', hconvert⟩ :
        ∃ stop' left' out', R.convert room source = (stop', left', out') := ⟨_, _, _, rfl⟩
    obtain ⟨hitems, -⟩ := items_of_convert hconvert
    rw [convertPieces, hconvert] at h
    cases stop' with
    | full =>
      obtain ⟨stop₂, left₂, out₂, hpieces⟩ :
        ∃ stop₂ left₂ out₂, R.convertPieces rooms left' = (stop₂, left₂, out₂) := ⟨_, _, _, rfl⟩
      obtain ⟨hitems₂, hends⟩ := ih hpieces
      simp only [hpieces, prepend, Prod.mk.injEq] at h
      obtain ⟨rfl, rfl, rfl⟩ := h
      exact ⟨hitems.trans hitems₂, hends⟩
    | done =>
      cases h
      exact ⟨hitems, fun hstop => (ends_of_convert hconvert hstop).2.1⟩
    | failed e =>
      cases h
      exact ⟨hitems, fun hstop => (ends_of_convert hconvert hstop).2.1⟩

/-- The pieces make up one conversion. -/
theorem convert_eq_convertPieces {rooms : List Nat}
    (h : R.convertPieces rooms source = (stop, left, out)) (hstop : stop ≠ .full)
    (hlarge : (R.convert room source).1 ≠ .full) : R.convert room source = (stop, left, out) := by
  obtain ⟨hitems, hends⟩ := convertPieces_spec h
  rw [convert_resume hitems (hends hstop).convert_eq_zero hstop hlarge, List.append_nil]

end Reader

/-! ## Conversions as loops -/

section

variable {α : Type u} {β : Type v} {ρ : Type w}

/-- A loop over the source that stops at the first turn without result. The turns are bounded by the
first argument. -/
def turnLoop (turn : List α → List β → Except ρ (List α × List β)) (ok stuck : ρ) :
    Nat → List α → List β → ρ × List α × List β
  | _, [], target => (ok, [], target)
  | 0, a :: source, target => (stuck, a :: source, target)
  | turns + 1, a :: source, target =>
    match turn (a :: source) target with
    | .error result => (result, a :: source, target)
    | .ok (rest, target) => turnLoop turn ok stuck turns rest target

/-- Reads one item and writes it if it fits. -/
def Reader.turn (R : Reader α β ρ) (full : ρ) (targetEnd : Nat) (source : List α)
    (target : List β) : Except ρ (List α × List β) :=
  match R.next source with
  | .error result => .error result
  | .ok (units, rest) =>
    if units.length ≤ targetEnd - target.length then .ok (rest, target ++ units)
    else .error full

/-- The result that says why a conversion stopped. -/
def Stop.result (ok full : ρ) : Stop ρ → ρ
  | .done => ok
  | .full => full
  | .failed result => result

variable {R : Reader α β ρ} {turn : List α → List β → Except ρ (List α × List β)}
  {ok full stuck result : ρ} {turns targetEnd : Nat} {source left : List α} {target out : List β}
  {stop : Stop ρ}

/-- A loop whose turns read one item and write it if it fits is the conversion by the reader. -/
theorem turnLoop_eq
    (hturn : ∀ source target, source ≠ [] →
      turn source target = R.turn full targetEnd source target)
    (h : source.length ≤ turns) :
    turnLoop turn ok stuck turns source target =
      ((R.convert (targetEnd - target.length) source).1.result ok full,
        (R.convert (targetEnd - target.length) source).2.1,
        target ++ (R.convert (targetEnd - target.length) source).2.2) := by
  induction turns generalizing source target with
  | zero =>
    obtain rfl := List.length_eq_zero_iff.1 (Nat.le_zero.1 h)
    simp [turnLoop, Reader.convert, Stop.result]
  | succ turns ih =>
    by_cases hne : source = []
    · subst hne
      simp [turnLoop, Reader.convert, Stop.result]
    have hloop : turnLoop turn ok stuck (turns + 1) source target =
        match turn source target with
        | .error result => (result, source, target)
        | .ok (rest, target) => turnLoop turn ok stuck turns rest target := by
      obtain ⟨a, source, rfl⟩ := List.exists_cons_of_ne_nil hne
      rfl
    rw [hloop, hturn source target hne, Reader.turn]
    cases hnext : R.next source with
    | error result =>
      rw [Reader.convert_error hne hnext]
      simp [Stop.result]
    | ok next =>
      obtain ⟨units, rest⟩ := next
      have hshorter := R.shorter hnext
      rw [Reader.convert_ok hne hnext]
      dsimp only
      split_ifs with hfits
      · dsimp only
        rw [ih (by omega), List.length_append, Nat.sub_add_eq]
        simp [Reader.prepend]
      · simp [Stop.result]

/-- A reader that never says `full` or `ok` leaves these two to the conversion. -/
theorem Reader.Ends.result_ne (hfull : ∀ source, R.next source ≠ .error full) (hne : ok ≠ full)
    (h : R.Ends stop left) : stop.result ok full ≠ full := by
  cases h with
  | done => exact hne
  | failed _ hnext =>
    intro heq
    rw [Stop.result] at heq
    rw [heq] at hnext
    exact hfull _ hnext

theorem Reader.result_eq_full_iff (hfull : ∀ source, R.next source ≠ .error full)
    (hne : ok ≠ full) {room : Nat} (h : R.convert room source = (stop, left, out)) :
    stop.result ok full = full ↔ stop = .full := by
  by_cases hstop : stop = .full
  · subst hstop
    simp [Stop.result]
  · exact iff_of_false ((Reader.ends_of_convert h hstop).2.1.result_ne hfull hne) hstop

end

end Odyssey.Lib
