import Mathlib.Data.List.Monad

/-!
# Runs of a partial machine

A machine takes actions one after another; `none` is a step that fails. `Every` is a condition on
the steps of a run, read in the state before each step, and `Always` a property of all its states,
which also says that no step fails. `always_iff_every` is the rule that finds out on which runs a
property is kept: those all of whose steps meet a condition, if a step keeps the property exactly
under the condition.
-/

namespace Odyssey.Lib.Runs

variable {σ τ α : Type*} (step : σ → α → Option σ)

def run (s : σ) (actions : List α) : Option σ :=
  actions.foldlM step s

/-- Every step of the run meets the condition. -/
def Every (condition : σ → α → Prop) (s : σ) : List α → Prop
  | [] => True
  | a :: rest => condition s a ∧ ∀ s', step s a = some s' → Every condition s' rest

/-- No step of the run fails, and every state is good. -/
def Always (good : σ → Prop) (s : σ) : List α → Prop
  | [] => good s
  | a :: rest => good s ∧ ∃ s', step s a = some s' ∧ Always good s' rest

instance Every.instDecidable {condition : σ → α → Prop} [∀ s a, Decidable (condition s a)] :
    (s : σ) → (actions : List α) → Decidable (Every step condition s actions)
  | _, [] => isTrue trivial
  | s, a :: rest =>
    match h : step s a with
    | none => decidable_of_iff (condition s a)
        ⟨fun holds => ⟨holds, fun _ eq => by rw [h] at eq; cases eq⟩, And.left⟩
    | some s' =>
      have : Decidable (Every step condition s' rest) := instDecidable s' rest
      decidable_of_iff (condition s a ∧ Every step condition s' rest)
        ⟨fun holds => ⟨holds.1, fun _ eq => Option.some.inj (h.symm.trans eq) ▸ holds.2⟩,
          fun holds => ⟨holds.1, holds.2 s' h⟩⟩

variable {step} {good I : σ → Prop} {condition : σ → α → Prop} {s s' : σ} {a : α}
  {actions : List α}

theorem every_of_forall (h : ∀ a ∈ actions, ∀ s, condition s a) :
    Every step condition s actions := by
  induction actions generalizing s with
  | nil => trivial
  | cons a rest ih =>
    obtain ⟨first, rest⟩ := List.forall_mem_cons.mp h
    exact ⟨first s, fun s' _ => ih rest⟩

theorem Every.cons (holds : condition s a) (eq : step s a = some s')
    (rest : Every step condition s' actions) : Every step condition s (a :: actions) :=
  ⟨holds, fun _ eq' => Option.some.inj (eq.symm.trans eq') ▸ rest⟩

theorem run_cons : run step s (a :: actions) = (step s a).bind (run step · actions) :=
  List.foldlM_cons

theorem run_invariant (keeps : ∀ {s a s'}, I s → step s a = some s' → I s')
    (h : I s) (eq : run step s actions = some s') : I s' := by
  induction actions generalizing s with
  | nil => exact Option.some.inj eq ▸ h
  | cons a rest ih =>
    obtain ⟨next, step_eq, rest_eq⟩ := Option.bind_eq_some_iff.mp (run_cons.symm.trans eq)
    exact ih (keeps h step_eq) rest_eq

theorem Always.last (always : Always step good s actions) :
    ∃ s', run step s actions = some s' ∧ good s' := by
  induction actions generalizing s with
  | nil => exact ⟨s, rfl, always⟩
  | cons a rest ih =>
    obtain ⟨-, next, eq, always⟩ := always
    obtain ⟨s', run, last⟩ := ih always
    exact ⟨s', by rw [run_cons, eq]; exact run, last⟩

theorem Every.and {other : σ → α → Prop} (h : Every step condition s actions)
    (h' : Every step other s actions) :
    Every step (fun s a => condition s a ∧ other s a) s actions := by
  induction actions generalizing s with
  | nil => trivial
  | cons a rest ih => exact ⟨⟨h.1, h'.1⟩, fun s' eq => ih (h.2 s' eq) (h'.2 s' eq)⟩

/-- A property is kept along a run all of whose steps meet a condition under which a step keeps an
invariant. -/
theorem always_of_every (good_of_inv : ∀ {s}, I s → good s)
    (keeps : ∀ {s a}, I s → condition s a → ∃ s', step s a = some s' ∧ I s') (h : I s)
    (every : Every step condition s actions) : Always step good s actions := by
  induction actions generalizing s with
  | nil => exact good_of_inv h
  | cons a rest ih =>
    obtain ⟨next, eq, inv'⟩ := keeps h every.1
    exact ⟨good_of_inv h, next, eq, ih inv' (every.2 next eq)⟩

/-- A machine refines another one along a run all of whose steps meet a condition under which a step
refines a step and keeps an invariant. -/
theorem map_run_of_every {step' : τ → α → Option τ} {f : σ → τ}
    (refines : ∀ {s a}, I s → condition s a → (step s a).map f = step' (f s) a ∧
      ∀ s' ∈ step s a, I s') (h : I s) (every : Every step condition s actions) :
    (run step s actions).map f = run step' (f s) actions ∧ ∀ s' ∈ run step s actions, I s' := by
  induction actions generalizing s with
  | nil => exact ⟨rfl, fun s' mem => Option.some.inj mem ▸ h⟩
  | cons a rest ih =>
    obtain ⟨eq, keeps⟩ := refines h every.1
    rw [run_cons, run_cons, ← eq]
    cases next : step s a with
    | none => exact ⟨rfl, fun _ mem => (by cases mem)⟩
    | some s' => exact ih (keeps s' next) (every.2 s' next)

/-- The runs along which a property is kept. `L` is what the surroundings of the machine
guarantee, and `I` what is known of a state while no step has gone wrong. -/
theorem always_iff_every {L : σ → α → Prop} (good_of_inv : ∀ {s}, I s → good s)
    (keeps : ∀ {s a}, I s → L s a → condition s a → ∃ s', step s a = some s' ∧ I s')
    (breaks : ∀ {s a s'}, I s → L s a → ¬ condition s a → step s a = some s' → ¬ good s')
    (h : I s) (lawful : Every step L s actions) :
    Always step good s actions ↔ Every step condition s actions := by
  induction actions generalizing s with
  | nil => exact ⟨fun _ => trivial, fun _ => good_of_inv h⟩
  | cons a rest ih =>
    obtain ⟨legal_a, legal_rest⟩ := lawful
    constructor
    · rintro ⟨-, next, eq, always⟩
      have good_next : good next := by
        cases rest with
        | nil => exact always
        | cons => exact always.1
      have condition_a : condition s a :=
        Classical.byContradiction fun violated => breaks h legal_a violated eq good_next
      obtain ⟨next', eq', inv'⟩ := keeps h legal_a condition_a
      refine ⟨condition_a, fun s' step_eq => ?_⟩
      obtain rfl : next' = s' := Option.some.inj (eq'.symm.trans step_eq)
      obtain rfl : next = next' := Option.some.inj (eq.symm.trans eq')
      exact (ih inv' (legal_rest next eq)).mp always
    · rintro ⟨condition_a, rest_condition⟩
      obtain ⟨next, eq, inv'⟩ := keeps h legal_a condition_a
      exact ⟨good_of_inv h, next, eq,
        (ih inv' (legal_rest next eq)).mpr (rest_condition next eq)⟩

end Odyssey.Lib.Runs
